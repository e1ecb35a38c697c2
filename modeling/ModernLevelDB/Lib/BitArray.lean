import Mathlib.Data.List.Basic

/-! # Bits in bytes

An array of bits kept in a list of bytes: bit `p` is bit `p % 8` of byte `p / 8`. -/
namespace BitArray
set_option autoImplicit false

/-- The mask of a bit in its byte. -/
def bitMask (position : Nat) : UInt8 := 1 <<< UInt8.ofNat (position % 8)

/-- Tests a bit in its byte. -/
def testMask (byte : UInt8) (position : Nat) : Bool := (byte &&& bitMask position) != 0

/-- Sets a bit, if the bytes have it. -/
def setBit (bytes : List UInt8) (position : Nat) : List UInt8 :=
  bytes.modify (position / 8) (· ||| bitMask position)

/-- Tests a bit; none is set behind the bytes. -/
def bitIsSet (bytes : List UInt8) (position : Nat) : Bool :=
  testMask (bytes.getD (position / 8) 0) position

/-! ## One byte -/

theorem toBitVec_bitMask (position : Nat) :
    (bitMask position).toBitVec = BitVec.twoPow 8 (position % 8) := by
  have hall : ∀ k : Fin 8, ((1 : UInt8) <<< UInt8.ofNat k).toBitVec = BitVec.twoPow 8 k := by decide
  exact hall ⟨position % 8, Nat.mod_lt _ (by decide)⟩

theorem testMask_eq (byte : UInt8) (position : Nat) :
    testMask byte position = byte.toBitVec.getLsbD (position % 8) := by
  have hmask : (byte &&& bitMask position).toBitVec =
      if byte.toBitVec.getLsbD (position % 8) then BitVec.twoPow 8 (position % 8) else 0#8 := by
    rw [UInt8.toBitVec_and, toBitVec_bitMask, BitVec.and_twoPow]
  have hpow : BitVec.twoPow 8 (position % 8) ≠ 0#8 := by
    have hall : ∀ k : Fin 8, BitVec.twoPow 8 k ≠ 0#8 := by decide
    exact hall ⟨position % 8, Nat.mod_lt _ (by decide)⟩
  cases hbit : byte.toBitVec.getLsbD (position % 8) with
  | true =>
    rw [hbit, if_pos rfl] at hmask
    refine bne_iff_ne.mpr (fun hzero => hpow ?_)
    rw [← hmask, hzero]
    rfl
  | false =>
    rw [hbit, if_neg Bool.false_ne_true] at hmask
    have hzero : byte &&& bitMask position = 0 := UInt8.toBitVec_inj.mp hmask
    rw [testMask, hzero]
    rfl

theorem testMask_or (byte : UInt8) (p q : Nat) :
    testMask (byte ||| bitMask p) q = (testMask byte q || decide (p % 8 = q % 8)) := by
  have hlt : p % 8 < 8 := Nat.mod_lt _ (by decide)
  rw [testMask_eq, testMask_eq, UInt8.toBitVec_or, BitVec.getLsbD_or, toBitVec_bitMask,
    BitVec.getLsbD_twoPow, decide_eq_true hlt, Bool.true_and]

/-! ## Arrays -/

theorem length_setBit (bytes : List UInt8) (position : Nat) :
    (setBit bytes position).length = bytes.length := List.length_modify _ _ _

theorem bitIsSet_setBit {bytes : List UInt8} {p : Nat} (hp : p / 8 < bytes.length) (q : Nat) :
    bitIsSet (setBit bytes p) q = (bitIsSet bytes q || decide (p = q)) := by
  rw [bitIsSet, setBit, List.getD_eq_getElem?_getD, List.getElem?_modify]
  by_cases hbyte : p / 8 = q / 8
  · have hsame : (p = q) = (p % 8 = q % 8) := by
      rw [eq_iff_iff]
      omega
    rw [List.getElem?_eq_getElem (hbyte ▸ hp)]
    simp only [hbyte, if_true, Option.map_eq_map, Option.map_some, Option.getD_some, testMask_or, hsame]
    rw [bitIsSet, List.getD_eq_getElem?_getD, List.getElem?_eq_getElem (hbyte ▸ hp), Option.getD_some]
  · have hne : p ≠ q := fun h => hbyte (h ▸ rfl)
    simp only [hbyte, if_false, hne, decide_false, Bool.or_false, id_map']
    rw [bitIsSet, List.getD_eq_getElem?_getD]

theorem bitIsSet_foldl_setBit {positions : List Nat} :
    ∀ {bytes : List UInt8}, (∀ p ∈ positions, p / 8 < bytes.length) → ∀ q,
      bitIsSet (positions.foldl setBit bytes) q = (bitIsSet bytes q || decide (q ∈ positions)) := by
  induction positions with
  | nil => simp
  | cons p positions ih =>
    intro bytes hinside q
    have hrest : ∀ q ∈ positions, q / 8 < (setBit bytes p).length := by
      rw [length_setBit]
      exact fun q hq => hinside q (List.mem_cons_of_mem p hq)
    rw [List.foldl_cons, ih hrest, bitIsSet_setBit (hinside p List.mem_cons_self), Bool.or_assoc]
    simp only [List.mem_cons, Bool.decide_or, eq_comm]

theorem length_foldl_setBit (positions : List Nat) : ∀ bytes : List UInt8,
    (positions.foldl setBit bytes).length = bytes.length := by
  induction positions with
  | nil => exact fun _ => rfl
  | cons p positions ih => exact fun bytes => (ih _).trans (length_setBit bytes p)

/-! ## Behind other bytes -/

theorem modify_append {α : Type*} (front back : List α) (i : Nat) (f : α → α) :
    (front ++ back).modify (front.length + i) f = front ++ back.modify i f := by
  induction front with
  | nil => rw [List.length_nil, Nat.zero_add, List.nil_append, List.nil_append]
  | cons b front ih =>
    rw [List.length_cons, Nat.add_right_comm, List.cons_append, List.modify_succ_cons, ih,
      List.cons_append]

theorem setBit_append (front bytes : List UInt8) (position : Nat) :
    setBit (front ++ bytes) (8 * front.length + position) = front ++ setBit bytes position := by
  have hbyte : (8 * front.length + position) / 8 = front.length + position / 8 := by omega
  have hmask : bitMask (8 * front.length + position) = bitMask position := by
    rw [bitMask, bitMask, Nat.mul_add_mod]
  rw [setBit, hbyte, hmask, modify_append, setBit]

theorem foldl_setBit_append (front : List UInt8) (positions : List Nat) : ∀ bytes : List UInt8,
    (positions.map (8 * front.length + ·)).foldl setBit (front ++ bytes) =
      front ++ positions.foldl setBit bytes := by
  induction positions with
  | nil => exact fun _ => rfl
  | cons p positions ih =>
    intro bytes
    rw [List.map_cons, List.foldl_cons, setBit_append, ih, List.foldl_cons]

theorem bitIsSet_append (front bytes : List UInt8) (position : Nat) :
    bitIsSet (front ++ bytes) (8 * front.length + position) = bitIsSet bytes position := by
  have hbyte : (8 * front.length + position) / 8 = front.length + position / 8 := by omega
  rw [bitIsSet, hbyte, List.getD_eq_getElem?_getD, List.getElem?_append_right (Nat.le_add_right _ _),
    Nat.add_sub_cancel_left, testMask_eq, Nat.mul_add_mod, ← testMask_eq, bitIsSet,
    List.getD_eq_getElem?_getD]

end BitArray
