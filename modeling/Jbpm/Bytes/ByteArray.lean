/-
  Arrays of bytes that are kept as blocks.

  * `Lossless`: what is chopped up is glued back together, and the blocks are full;
  * `ByteArray.equals`, `ByteArray.hashCode`: blocks are compared by their bytes, but their
    hash codes are those of the objects;
  * `chopping_iff`: the arrays, and the pairs of them, for which both are right.
-/
import Mathlib.Algebra.BigOperators.Ring.Finset
import Mathlib.Data.BitVec
import Mathlib.Tactic.Ring
import Jbpm.Context.Converter

namespace Jbpm

namespace Bytes

open Context

/-! ## Blocks -/

/-- What the chopping of an array should be. -/
structure Lossless (blockSize : ℕ) (bytes : List UInt8) : Prop where
  roundTrip : glueChopsBackTogether (chopItUp blockSize bytes) = some bytes
  nonempty : ∀ blocks ∈ chopItUp blockSize bytes, ∀ block ∈ blocks, block ≠ []
  length_le : ∀ blocks ∈ chopItUp blockSize bytes, ∀ block ∈ blocks, block.length ≤ blockSize
  full : ∀ blocks ∈ chopItUp blockSize bytes, ∀ block ∈ blocks.dropLast, block.length = blockSize

section Chop

variable {k n : ℕ} {bs block : List UInt8}

theorem ne_nil_of_mem_chop (hk : 0 < k) (hbs : bs ≠ []) (h : block ∈ chop k n bs) :
    block ≠ [] := by
  induction n generalizing bs with
  | zero =>
    obtain rfl := List.mem_singleton.mp h
    exact hbs
  | succ n ih =>
    rw [chop] at h
    split at h
    · next hlt =>
      have hdrop : bs.drop k ≠ [] := by
        rw [← List.length_pos_iff, List.length_drop]
        omega
      rcases List.mem_cons.mp h with rfl | h
      · rw [← List.length_pos_iff, List.length_take]
        omega
      · exact ih hdrop h
    · obtain rfl := List.mem_singleton.mp h
      exact hbs

theorem length_of_mem_dropLast_chop (h : block ∈ (chop k n bs).dropLast) : block.length = k := by
  induction n generalizing bs with
  | zero => cases h
  | succ n ih =>
    rw [chop] at h
    split at h
    · next hlt =>
      rw [List.dropLast_cons_of_ne_nil chop_ne_nil] at h
      rcases List.mem_cons.mp h with rfl | h
      · rw [List.length_take]
        omega
      · exact ih h
    · cases h

end Chop

/-- Only the empty array is lost. -/
theorem lossless_iff {blockSize : ℕ} (h : 0 < blockSize) {bytes : List UInt8} :
    Lossless blockSize bytes ↔ bytes ≠ [] := by
  constructor
  · rintro hlossless rfl
    cases hlossless.roundTrip
  · intro hne
    have hblocks : ∀ blocks ∈ chopItUp blockSize bytes,
        blocks = chop blockSize bytes.length bytes := by
      intro blocks hblocks
      rw [chopItUp, if_neg (by rwa [List.isEmpty_iff])] at hblocks
      exact (Option.some.inj hblocks).symm
    constructor
    · rw [glue_chopItUp, if_neg hne]
    · intro blocks hb block hmem
      rw [hblocks blocks hb] at hmem
      exact ne_nil_of_mem_chop h hne hmem
    · intro blocks hb block hmem
      rw [hblocks blocks hb] at hmem
      exact length_le_of_mem_chop h le_rfl hmem
    · intro blocks hb block hmem
      rw [hblocks blocks hb] at hmem
      exact length_of_mem_dropLast_chop hmem

/-! ## Hash codes -/

/-- The blocks are objects; they may be null. -/
structure ByteArray (R : Type) where
  byteBlocks : Option (List R)

/-- `List.hashCode` -/
def listHashCode {R : Type} (hashCode : R → BitVec 32) (l : List R) : BitVec 32 :=
  l.foldl (fun n r => 31 * n + hashCode r) 1

namespace ByteArray

variable {R : Type}

/-- The bytes of the objects are what they are at the moment. -/
def getBytes (bytes : R → List UInt8) (x : ByteArray R) : Option (List UInt8) :=
  glueChopsBackTogether (x.byteBlocks.map (List.map bytes))

def equals (bytes : R → List UInt8) (x y : ByteArray R) : Bool :=
  x.getBytes bytes = y.getBytes bytes

/-- The hash code of a block is that of the object. -/
def hashCode (identityHashCode : R → BitVec 32) (x : ByteArray R) : BitVec 32 :=
  x.byteBlocks.elim 0 (listHashCode identityHashCode)

/-- Whatever hash codes the objects have, they are equal if the arrays are. -/
def Consistent (bytes : R → List UInt8) (x y : ByteArray R) : Prop :=
  x.equals bytes y → ∀ identityHashCode : R → BitVec 32,
    x.hashCode identityHashCode = y.hashCode identityHashCode

theorem listHashCode_append (hashCode : R → BitVec 32) (l : List R) (r : R) :
    listHashCode hashCode (l ++ [r]) = 31 * listHashCode hashCode l + hashCode r := by
  rw [listHashCode, List.foldl_append]
  rfl

section Weight

variable [DecidableEq R]

/-- How often the hash code of an object counts in that of a list. -/
def weight (l : List R) (r : R) : BitVec 32 :=
  l.foldl (fun n r' => 31 * n + if r' = r then 1 else 0) 0

/-- How often the hash code of a block counts in that of an array. -/
def blockWeight (x : ByteArray R) (r : R) : BitVec 32 := x.byteBlocks.elim 0 (weight · r)

/-- What counts in the hash code of an array besides those of its blocks. -/
def lengthWeight (x : ByteArray R) : BitVec 32 := x.byteBlocks.elim 0 fun l => 31 ^ l.length

/-- Both hash codes are the same sum of those of the blocks. -/
structure SameWeights (x y : ByteArray R) : Prop where
  length : x.lengthWeight = y.lengthWeight
  blocks : ∀ r, x.blockWeight r = y.blockWeight r

theorem weight_append (l : List R) (r' r : R) :
    weight (l ++ [r']) r = 31 * weight l r + if r' = r then 1 else 0 := by
  rw [weight, List.foldl_append]
  rfl

/-- A hash code is a sum over the objects of the list. -/
theorem listHashCode_eq (hashCode : R → BitVec 32) {s : Finset R} {l : List R}
    (h : ∀ r ∈ l, r ∈ s) :
    listHashCode hashCode l = 31 ^ l.length + ∑ r ∈ s, weight l r * hashCode r := by
  induction l using List.reverseRecOn with
  | nil =>
    have hzero : ∀ r ∈ s, weight [] r * hashCode r = 0 := fun r _ => zero_mul _
    rw [Finset.sum_eq_zero hzero]
    rfl
  | append_singleton l r ih =>
    have hr : r ∈ s := h r (List.mem_append_right _ (List.mem_singleton.mpr rfl))
    have hsum : ∑ r' ∈ s, (if r = r' then 1 else 0) * hashCode r' = hashCode r := by
      rw [Finset.sum_eq_single_of_mem r hr fun r' _ hne => by rw [if_neg hne.symm, zero_mul],
        if_pos rfl, one_mul]
    rw [listHashCode_append, ih fun r' hr' => h r' (List.mem_append_left _ hr'),
      List.length_append, List.length_singleton]
    simp only [weight_append, add_mul, Finset.sum_add_distrib, hsum, mul_assoc, ← Finset.mul_sum]
    ring

theorem listHashCode_single (l : List R) (r : R) :
    listHashCode (fun r' => if r' = r then 1 else 0) l = 31 ^ l.length + weight l r := by
  induction l using List.reverseRecOn with
  | nil => rfl
  | append_singleton l r' ih =>
    rw [listHashCode_append, ih, weight_append, List.length_append, List.length_singleton]
    ring

theorem hashCode_eq (x : ByteArray R) (identityHashCode : R → BitVec 32) {s : Finset R}
    (h : ∀ l ∈ x.byteBlocks, ∀ r ∈ l, r ∈ s) : x.hashCode identityHashCode =
      x.lengthWeight + ∑ r ∈ s, x.blockWeight r * identityHashCode r := by
  rw [hashCode, lengthWeight]
  simp only [blockWeight]
  cases hx : x.byteBlocks with
  | none =>
    have hzero : ∀ r ∈ s, (0 : BitVec 32) * identityHashCode r = 0 := fun r _ => zero_mul _
    rw [Option.elim_none, Option.elim_none, zero_add]
    exact (Finset.sum_eq_zero hzero).symm
  | some l => exact listHashCode_eq identityHashCode (h l hx)

theorem hashCode_single (x : ByteArray R) (r : R) :
    x.hashCode (fun r' => if r' = r then 1 else 0) = x.lengthWeight + x.blockWeight r := by
  rw [hashCode, lengthWeight, blockWeight]
  cases x.byteBlocks with
  | none => rfl
  | some l => exact listHashCode_single l r

theorem hashCode_zero (x : ByteArray R) : x.hashCode (fun _ => 0) = x.lengthWeight := by
  rw [x.hashCode_eq (fun _ => 0) (s := (x.byteBlocks.getD []).toFinset) fun l hl r hr => by
    rw [Option.mem_def.mp hl]
    exact List.mem_toFinset.mpr hr]
  simp only [mul_zero, Finset.sum_const_zero, add_zero]

theorem hashCode_eq_iff {x y : ByteArray R} :
    (∀ h : R → BitVec 32, x.hashCode h = y.hashCode h) ↔ SameWeights x y := by
  constructor
  · intro h
    have hlength : x.lengthWeight = y.lengthWeight := by
      rw [← hashCode_zero, ← hashCode_zero, h]
    refine ⟨hlength, fun r => ?_⟩
    have hsingle := h fun r' => if r' = r then 1 else 0
    rw [hashCode_single, hashCode_single, hlength] at hsingle
    exact add_left_cancel hsingle
  · intro h identityHashCode
    have hx : ∀ l ∈ x.byteBlocks, ∀ r ∈ l,
        r ∈ ((x.byteBlocks.getD []) ++ (y.byteBlocks.getD [])).toFinset := by
      intro l hl r hr
      rw [Option.mem_def.mp hl]
      exact List.mem_toFinset.mpr (List.mem_append_left _ hr)
    have hy : ∀ l ∈ y.byteBlocks, ∀ r ∈ l,
        r ∈ ((x.byteBlocks.getD []) ++ (y.byteBlocks.getD [])).toFinset := by
      intro l hl r hr
      rw [Option.mem_def.mp hl]
      exact List.mem_toFinset.mpr (List.mem_append_right _ hr)
    rw [x.hashCode_eq _ hx, y.hashCode_eq _ hy, h.length]
    simp only [h.blocks]

theorem weight_of_notMem {l : List R} {r : R} (h : r ∉ l) : weight l r = 0 := by
  induction l using List.reverseRecOn with
  | nil => rfl
  | append_singleton l r' ih =>
    rw [List.mem_append, List.mem_singleton, not_or] at h
    rw [weight_append, ih h.1, if_neg (Ne.symm h.2), mul_zero, add_zero]

/-- Blocks of their own tell arrays apart. -/
theorem not_sameWeights_of_notMem {l : List R} {r : R} (hr : r ∉ l) {y : ByteArray R}
    (hy : r ∉ y.byteBlocks.getD []) : ¬ SameWeights ⟨some (l ++ [r])⟩ y := by
  intro h
  have hx : blockWeight ⟨some (l ++ [r])⟩ r = 1 := by
    rw [blockWeight, Option.elim_some, weight_append, weight_of_notMem hr, if_pos rfl, mul_zero,
      zero_add]
  have hzero : y.blockWeight r = 0 := by
    rw [blockWeight]
    cases hblocks : y.byteBlocks with
    | none => rfl
    | some l' =>
      rw [hblocks] at hy
      exact weight_of_notMem hy
  have hone := h.blocks r
  rw [hx, hzero] at hone
  cases hone

theorem consistent_iff_hashCode {bytes : R → List UInt8} {x y : ByteArray R} :
    Consistent bytes x y ↔ (x.equals bytes y → SameWeights x y) :=
  imp_congr_right fun _ => hashCode_eq_iff

end Weight

end ByteArray

/-- What is expected of the blocks of an array, and of two arrays. -/
structure Chopping {R : Type} (blockSize : ℕ) (array : List UInt8) (bytes : R → List UInt8)
    (x y : ByteArray R) : Prop where
  lossless : Lossless blockSize array
  consistent : ByteArray.Consistent bytes x y

/-- Arrays that are not empty are kept, and arrays with equal bytes have equal hash codes if these
    are the same sum of those of the blocks. -/
theorem chopping_iff {R : Type} [DecidableEq R] {blockSize : ℕ} (h : 0 < blockSize)
    {array : List UInt8} {bytes : R → List UInt8} {x y : ByteArray R} :
    Chopping blockSize array bytes x y ↔
      array ≠ [] ∧ (x.equals bytes y → ByteArray.SameWeights x y) := by
  rw [← lossless_iff h, ← ByteArray.consistent_iff_hashCode]
  exact ⟨fun hc => ⟨hc.lossless, hc.consistent⟩, fun hc => ⟨hc.1, hc.2⟩⟩

theorem chopping_copy : Chopping 2 [1, 2, 3] (fun _ : Unit => [7]) ⟨some [()]⟩ ⟨some [()]⟩ :=
  (chopping_iff (by decide)).mpr ⟨List.cons_ne_nil _ _, fun _ => ⟨rfl, fun _ => rfl⟩⟩

/-- The empty array is lost; two arrays of the same byte have blocks of their own. -/
theorem not_chopping : ¬ Lossless 1024 [] ∧
    ¬ ByteArray.Consistent (fun _ : Bool => [7]) ⟨some [true]⟩ ⟨some [false]⟩ := by
  constructor
  · exact fun h => (lossless_iff (by decide)).mp h rfl
  · intro h
    have hsame := ByteArray.consistent_iff_hashCode.mp h (by decide)
    exact ByteArray.not_sameWeights_of_notMem (l := []) (r := true) nofun (by decide) hsame

end Bytes

end Jbpm
