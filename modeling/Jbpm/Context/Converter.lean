/-
  Values of process variables and the converters that store them.

  * `chopItUp`, `glueChopsBackTogether`: the blocks of a `ByteArray`;
  * `Converter.supports`, `convert`, `revert`: the converters of
    `jbpm.varmapping.xml`;
  * `Converter.Accepts`, `Converter.Converts`: the values that a converter can
    store, and those that it stores without loss (`converts_iff`).
-/
import Mathlib.Data.Nat.Notation

namespace Jbpm

namespace Context

/-! ## Values -/

/-- The types whose values are only passed through: floating point numbers, the
    serializable objects without a type of their own below, and the objects that
    cannot be serialized. -/
structure Types where
  Float : Type
  Double : Type
  Serializable : Type
  Object : Type

/-- A Java value.  Strings are their `char`s, dates their milliseconds. -/
inductive Obj (T : Types) where
  | null
  | boolean (b : Bool)
  | character (c : UInt16)
  | byte (n : BitVec 8)
  | short (n : BitVec 16)
  | integer (n : BitVec 32)
  | long (n : BitVec 64)
  | float (x : T.Float)
  | double (x : T.Double)
  | date (time : BitVec 64)
  | string (s : List UInt16)
  | bytes (bs : List UInt8)
  /-- `org.jbpm.bytes.ByteArray`, with its `byteBlocks` -/
  | byteArray (byteBlocks : Option (List (List UInt8)))
  | serializable (s : T.Serializable)
  | object (o : T.Object)

inductive Exn where
  | nullPointerException
  | classCastException
  /-- `couldn't serialize` -/
  | notSerializable
  /-- `the converter .. in variable instance .. does not support values of type ..` -/
  | notSupportedByConverter
  /-- `variable instance .. does not support values of type ..` -/
  | notSupportedByInstance
  deriving DecidableEq

/-- What the Java library does for the converters: the casts between `float` and
    `double`, and object streams.  `jbpm.byte.block.size` is the size of blocks. -/
structure Library (T : Types) where
  doubleValue : T.Float → T.Double
  floatValue : T.Double → T.Float
  floatValue_doubleValue : ∀ x, floatValue (doubleValue x) = x
  writeObject : Obj T → Option (List UInt8)
  readObject : List UInt8 → Option (Obj T)
  readObject_writeObject : ∀ {v bs}, writeObject v = some bs → readObject bs = some v
  /-- A stream starts with its header. -/
  writeObject_ne_nil : ∀ {v}, writeObject v ≠ some []
  blockSize : ℕ
  blockSize_pos : 0 < blockSize

/-! ## `ByteBlockChopper` -/

/-- The loop of `chopItUp`.  The first argument bounds the number of blocks. -/
def chop (blockSize : ℕ) : ℕ → List UInt8 → List (List UInt8)
  | 0, bs => [bs]
  | n + 1, bs =>
    if blockSize < bs.length then bs.take blockSize :: chop blockSize n (bs.drop blockSize)
    else [bs]

def chopItUp (blockSize : ℕ) (bs : List UInt8) : Option (List (List UInt8)) :=
  if bs.isEmpty then none else some (chop blockSize bs.length bs)

def glueChopsBackTogether : Option (List (List UInt8)) → Option (List UInt8)
  | none => none
  | some blocks => blocks.foldl (fun value block =>
      match value with
      | none => some block
      | some oldValue => some (oldValue ++ block)) none

theorem chop_ne_nil {k n : ℕ} {bs : List UInt8} : chop k n bs ≠ [] := by
  cases n with
  | zero => exact List.cons_ne_nil _ _
  | succ n =>
    rw [chop]
    split <;> exact List.cons_ne_nil _ _

theorem flatten_chop {k n : ℕ} {bs : List UInt8} : (chop k n bs).flatten = bs := by
  induction n generalizing bs with
  | zero => simp [chop]
  | succ n ih =>
    rw [chop]
    split
    · rw [List.flatten_cons, ih, List.take_append_drop]
    · simp

/-- Every block fits, so the loop has ended by itself. -/
theorem length_le_of_mem_chop {k n : ℕ} {bs block : List UInt8} (hk : 0 < k)
    (hn : bs.length ≤ n) (h : block ∈ chop k n bs) : block.length ≤ k := by
  induction n generalizing bs with
  | zero =>
    obtain rfl : block = bs := by simpa [chop] using h
    omega
  | succ n ih =>
    rw [chop] at h
    split at h
    · rcases List.mem_cons.1 h with rfl | h
      · rw [List.length_take]
        omega
      · refine ih ?_ h
        rw [List.length_drop]
        omega
    · obtain rfl : block = bs := by simpa using h
      omega

theorem glue_cons (block : List UInt8) (blocks : List (List UInt8)) :
    glueChopsBackTogether (some (block :: blocks)) = some (block ++ blocks.flatten) := by
  show blocks.foldl _ (some block) = _
  induction blocks generalizing block with
  | nil => simp
  | cons b blocks ih =>
    rw [List.foldl_cons, ih, List.flatten_cons, List.append_assoc]

/-- What is chopped up is glued back together, except for the empty array. -/
theorem glue_chopItUp (k : ℕ) (bs : List UInt8) :
    glueChopsBackTogether (chopItUp k bs) = if bs = [] then none else some bs := by
  rw [chopItUp]
  rcases bs with _ | ⟨b, bs⟩
  · rfl
  rw [List.isEmpty_cons, if_neg Bool.false_ne_true, if_neg (List.cons_ne_nil b bs)]
  rcases hc : chop k (b :: bs).length (b :: bs) with _ | ⟨block, blocks⟩
  · exact absurd hc chop_ne_nil
  · rw [glue_cons, ← List.flatten_cons, ← hc, flatten_chop]

/-! ## Converters -/

/-- The converters that variable types are registered with. -/
inductive Converter where
  | booleanToString
  | characterToString
  | byteToLong
  | shortToLong
  | integerToLong
  | floatToDouble
  | bytesToByteArray
  | serializableToByteArray
  deriving DecidableEq

namespace Converter

variable {T : Types} (L : Library T)

def TRUE_TEXT : List UInt16 := [84]
def FALSE_TEXT : List UInt16 := [70]

def supports : Converter → Obj T → Bool
  | _, .null => true
  | .booleanToString, .boolean _ => true
  | .characterToString, .character _ => true
  | .byteToLong, .byte _ => true
  | .shortToLong, .short _ => true
  | .integerToLong, .integer _ => true
  | .floatToDouble, .float _ => true
  | .bytesToByteArray, .bytes _ => true
  | .serializableToByteArray, .object _ => false
  | .serializableToByteArray, _ => true
  | _, _ => false

def convert : Converter → Obj T → Except Exn (Obj T)
  | .serializableToByteArray, v =>
    match L.writeObject v with
    | none => .error .notSerializable
    | some bs => .ok (.byteArray (chopItUp L.blockSize bs))
  | .bytesToByteArray, .null => .ok (.byteArray none)
  | .bytesToByteArray, .bytes bs => .ok (.byteArray (chopItUp L.blockSize bs))
  -- the others call a method of the value
  | _, .null => .error .nullPointerException
  | .booleanToString, .boolean b => .ok (.string (if b then TRUE_TEXT else FALSE_TEXT))
  | .characterToString, .character c => .ok (.string [c])
  | .byteToLong, .byte n => .ok (.long (n.signExtend 64))
  | .shortToLong, .short n => .ok (.long (n.signExtend 64))
  | .integerToLong, .integer n => .ok (.long (n.signExtend 64))
  | .floatToDouble, .float x => .ok (.double (L.doubleValue x))
  | _, _ => .error .classCastException

/-- `revert`, for the values that do not make it fail. -/
def revert : Converter → Obj T → Option (Obj T)
  | .booleanToString, .string s => some (.boolean (s == TRUE_TEXT))
  | .booleanToString, _ => some (.boolean false)
  | .characterToString, .string (c :: _) => some (.character c)
  | .byteToLong, .long n => some (.byte (n.truncate 8))
  | .shortToLong, .long n => some (.short (n.truncate 16))
  | .integerToLong, .long n => some (.integer (n.truncate 32))
  | .floatToDouble, .double x => some (.float (L.floatValue x))
  | .bytesToByteArray, .byteArray blocks =>
    match glueChopsBackTogether blocks with
    | none => some .null
    | some bs => some (.bytes bs)
  | .serializableToByteArray, .byteArray blocks =>
    (glueChopsBackTogether blocks).bind L.readObject
  | _, _ => none

/-- The supported values that can be converted. -/
def Accepts : Converter → Obj T → Prop
  | .serializableToByteArray, v => L.writeObject v ≠ none
  | .bytesToByteArray, _ => True
  | _, v => v ≠ .null

/-- The supported values that can be converted to something that reverts to them. -/
def Converts (c : Converter) (v : Obj T) : Prop :=
  c.Accepts L v ∧ ¬(c = .bytesToByteArray ∧ v = .bytes [])

variable {L} {c : Converter} {v o : Obj T}

/-- A converter stores values of one type, which is not `null`. -/
theorem convert_ne_null (h : c.convert L v = .ok o) : o ≠ .null := by
  rintro rfl
  cases c <;> cases v <;> simp [convert] at h <;> split at h <;> simp at h

/-- What has been converted can be reverted. -/
theorem isSome_revert_convert (h : c.convert L v = .ok o) : (c.revert L o).isSome = true := by
  cases c with
  | serializableToByteArray =>
    rw [convert] at h
    split at h
    · cases h
    · rename_i bs hw
      obtain rfl := Except.ok.inj h
      have hne : bs ≠ [] := by
        rintro rfl
        exact L.writeObject_ne_nil hw
      simp [revert, glue_chopItUp, hne, L.readObject_writeObject hw]
  | bytesToByteArray =>
    cases v with
    | null =>
      obtain rfl := Except.ok.inj h
      rfl
    | bytes bs =>
      obtain rfl := Except.ok.inj h
      rw [revert]
      split <;> rfl
    | _ => cases h
  | _ =>
    cases v <;> cases h
    rfl

theorem accepts_iff (hs : c.supports v = true) :
    c.Accepts L v ↔ ∃ o, c.convert L v = .ok o := by
  cases c with
  | serializableToByteArray =>
    rcases hw : L.writeObject v with _ | bs <;> simp [Accepts, convert, hw]
  | _ => cases v <;> first | exact absurd hs Bool.false_ne_true | simp [Accepts, convert]

theorem truncate_signExtend {w : ℕ} (n : BitVec w) (hw : w ≤ 64) :
    (n.signExtend 64).truncate w = n := by
  ext i hi
  simp [BitVec.getElem_signExtend, hi, show i < 64 by omega]

/-- **Round trip.**  `revert(convert(v)) = v`, for these values and no others. -/
theorem converts_iff (hs : c.supports v = true) :
    c.Converts L v ↔ ∃ o, c.convert L v = .ok o ∧ c.revert L o = some v := by
  cases c with
  | serializableToByteArray =>
    rcases hw : L.writeObject v with _ | bs
    · simp [Converts, Accepts, convert, hw]
    · have hne : bs ≠ [] := by
        rintro rfl
        exact L.writeObject_ne_nil hw
      simp [Converts, Accepts, convert, revert, hw, glue_chopItUp, hne, L.readObject_writeObject hw]
  | bytesToByteArray =>
    cases v with
    | null => simp [Converts, Accepts, convert, revert, glueChopsBackTogether]
    | bytes bs =>
      by_cases hbs : bs = []
      · subst hbs
        simp [Converts, Accepts, convert, revert, glue_chopItUp]
      · simp [Converts, Accepts, convert, revert, glue_chopItUp, hbs]
    | _ => cases hs
  | booleanToString =>
    cases v with
    | null => simp [Converts, Accepts, convert]
    | boolean b => cases b <;> simp [Converts, Accepts, convert, revert, TRUE_TEXT, FALSE_TEXT]
    | _ => cases hs
  | characterToString =>
    cases v with
    | null => simp [Converts, Accepts, convert]
    | character c => simp [Converts, Accepts, convert, revert]
    | _ => cases hs
  | byteToLong =>
    cases v with
    | null => simp [Converts, Accepts, convert]
    | byte n => simp [Converts, Accepts, convert, revert, truncate_signExtend]
    | _ => cases hs
  | shortToLong =>
    cases v with
    | null => simp [Converts, Accepts, convert]
    | short n => simp [Converts, Accepts, convert, revert, truncate_signExtend]
    | _ => cases hs
  | integerToLong =>
    cases v with
    | null => simp [Converts, Accepts, convert]
    | integer n => simp [Converts, Accepts, convert, revert, truncate_signExtend]
    | _ => cases hs
  | floatToDouble =>
    cases v with
    | null => simp [Converts, Accepts, convert]
    | float x => simp [Converts, Accepts, convert, revert, L.floatValue_doubleValue]
    | _ => cases hs

end Converter

end Context

end Jbpm
