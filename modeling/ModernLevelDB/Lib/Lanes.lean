import Mathlib.Data.BitVec

/-! # Vectors of eight lanes

The 256-bit integer instructions that work on eight lanes of 32 bits, and what each gives in one lane.
Lane `i` of a vector in memory is made of its bytes `4 i` to `4 i + 3`, the lowest first. -/
namespace Lanes
set_option autoImplicit false

/-- Eight lanes of 32 bits. -/
abbrev Vec := Fin 8 → BitVec 32

/-- Four bytes as a word, the first one lowest. -/
def pack (byte : Fin 4 → BitVec 8) : BitVec 32 := byte 3 ++ byte 2 ++ byte 1 ++ byte 0

/-- `loadu_si256`. -/
def load (bytes : Fin 32 → UInt8) : Vec :=
  fun i => pack (fun j => (bytes ⟨4 * i + j, by omega⟩).toBitVec)

/-- `set1_epi32`. -/
def broadcast (x : BitVec 32) : Vec := fun _ => x

/-- `mullo_epi32`. -/
def mulLow (a b : Vec) : Vec := fun i => a i * b i

/-- `srli_epi32`. -/
def shiftRight (a : Vec) (count : Nat) : Vec := fun i => a i >>> count

/-- `srai_epi32`. -/
def shiftRightSigned (a : Vec) (count : Nat) : Vec := fun i => (a i).sshiftRight count

/-- `sllv_epi32`: every lane has its own count. -/
def shiftLeftEach (a counts : Vec) : Vec := fun i => a i <<< (counts i).toNat

/-- `and_si256`. -/
def and (a b : Vec) : Vec := fun i => a i &&& b i

/-- `permutevar8x32_epi32`: the low three bits of an index count. -/
def permute (a indices : Vec) : Vec :=
  fun i => a ⟨(indices i).toNat % 8, Nat.mod_lt _ (by decide)⟩

/-- `blendv_epi8`: a byte of `b` where the highest bit of the mask's byte is set. -/
def blendBytes (a b mask : Vec) : Vec := fun i => pack fun j =>
  if (mask i).getLsbD (8 * j + 7) then (b i).extractLsb' (8 * j) 8 else (a i).extractLsb' (8 * j) 8

/-- `cmpgt_epi32`, of signed lanes. -/
def greater (a b : Vec) : Vec :=
  fun i => if (b i).toInt < (a i).toInt then BitVec.allOnes 32 else 0#32

/-- `testc_si256`: every bit of `b` is a bit of `a`. -/
def testCarry (a b : Vec) : Bool := decide (∀ i, ~~~(a i) &&& b i = 0#32)

/-! ## One lane -/

theorem getLsbD_pack (byte : Fin 4 → BitVec 8) (j : Fin 4) {k : Nat} (hk : k < 8) :
    (pack byte).getLsbD (8 * j + k) = (byte j).getLsbD k := by
  have hsplit (i : Nat) : (pack byte).getLsbD i =
      if i < 8 then (byte 0).getLsbD i
      else if i < 16 then (byte 1).getLsbD (i - 8)
      else if i < 24 then (byte 2).getLsbD (i - 16)
      else (byte 3).getLsbD (i - 24) := by
    rw [pack, BitVec.getLsbD_append, BitVec.getLsbD_append, BitVec.getLsbD_append]
    split_ifs <;> first | rfl | omega
  rw [hsplit]
  rcases j with ⟨_ | _ | _ | _ | j, hj⟩
  · rw [if_pos (by dsimp only; omega)]
    simp
  · rw [if_neg (by dsimp only; omega), if_pos (by dsimp only; omega)]
    simp
  · rw [if_neg (by dsimp only; omega), if_neg (by dsimp only; omega), if_pos (by dsimp only; omega)]
    simp
  · rw [if_neg (by dsimp only; omega), if_neg (by dsimp only; omega), if_neg (by dsimp only; omega)]
    simp
  · omega

theorem pack_extract (x : BitVec 32) : pack (fun j => x.extractLsb' (8 * j) 8) = x := by
  refine BitVec.eq_of_getLsbD_eq (fun i hi => ?_)
  have hbyte : i = 8 * (i / 8) + i % 8 := (Nat.div_add_mod i 8).symm
  have hbit : i % 8 < 8 := Nat.mod_lt _ (by decide)
  have hpack := getLsbD_pack (fun j => x.extractLsb' (8 * j) 8) ⟨i / 8, by omega⟩ hbit
  dsimp only at hpack
  rw [← hbyte] at hpack
  rw [hpack, BitVec.getLsbD_extractLsb', decide_eq_true hbit, Bool.true_and, ← hbyte]

theorem blendBytes_eq {a b mask : Vec} {i : Fin 8} {p : Bool}
    (h : mask i = if p then BitVec.allOnes 32 else 0#32) :
    blendBytes a b mask i = if p then b i else a i := by
  rw [blendBytes, h]
  cases p with
  | true =>
    have hset (j : Fin 4) : (BitVec.allOnes 32).getLsbD (8 * j + 7) = true := by
      rw [BitVec.getLsbD_allOnes]
      exact decide_eq_true (by omega)
    simp only [if_true, hset, pack_extract]
  | false => simp only [Bool.false_eq_true, if_false, BitVec.getLsbD_zero, pack_extract]

theorem shiftRightSigned_sign (a : Vec) (i : Fin 8) :
    shiftRightSigned a 31 i = if (a i).msb then BitVec.allOnes 32 else 0#32 := by
  refine BitVec.eq_of_getLsbD_eq (fun k hk => ?_)
  rw [shiftRightSigned, BitVec.getLsbD_sshiftRight, decide_eq_false (by omega), Bool.not_false,
    Bool.true_and]
  by_cases hzero : k = 0
  · rw [hzero, if_pos (by decide), BitVec.msb_eq_getLsbD_last]
    cases (a i).getLsbD 31 <;> simp
  · rw [if_neg (by omega)]
    cases (a i).msb with
    | true => rw [if_pos rfl, BitVec.getLsbD_allOnes, decide_eq_true hk]
    | false => rw [if_neg Bool.false_ne_true, BitVec.getLsbD_zero]

theorem testCarry_single {words counts active : Vec} {p : Fin 8 → Prop} [DecidablePred p]
    (hcounts : ∀ i, (counts i).toNat < 32)
    (hactive : ∀ i, active i = if p i then BitVec.allOnes 32 else 0#32) :
    testCarry words (and (shiftLeftEach (broadcast 1#32) counts) active) = true ↔
      ∀ i, p i → (words i).getLsbD (counts i).toNat = true := by
  rw [testCarry, decide_eq_true_iff]
  refine forall_congr' (fun i => ?_)
  rw [and, shiftLeftEach, broadcast, hactive, ← BitVec.twoPow_eq]
  by_cases hp : p i
  · rw [if_pos hp, BitVec.and_allOnes, BitVec.and_twoPow, BitVec.getLsbD_not,
      decide_eq_true (hcounts i), Bool.true_and]
    have hpow : BitVec.twoPow 32 (counts i).toNat ≠ 0#32 := by
      intro hzero
      have hbit := congrArg (BitVec.getLsbD · (counts i).toNat) hzero
      simp [hcounts i] at hbit
    cases (words i).getLsbD (counts i).toNat <;> simp [hp, hpow]
  · simp [hp]

end Lanes
