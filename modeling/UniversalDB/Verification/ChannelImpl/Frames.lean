import Mathlib.Data.Nat.Digits.Lemmas
import UniversalDB.Library.PrefixCode
import UniversalDB.Model.ChannelImpl

/-! # The frames of `ChannelImpl`

A frame is the length of a message in four bytes, and the message. The receiver gets back
the length that the sender has put in as long as it is below 2 ^ 31, and then a stream of
frames can be read in one way only. -/

namespace UniversalDB.ChannelImpl

theorem length_intToStr (i : ℕ) : (intToStr i).length = 4 := rfl

theorem ofDigits_intToStr {i : ℕ} (h : i < 2 ^ 32) :
    Nat.ofDigits 256 ((intToStr i).map UInt8.toNat) = i := by
  simp only [intToStr, List.map_cons, List.map_nil, Nat.ofDigits_cons, Nat.ofDigits_nil,
    UInt8.toNat_ofNat']
  omega

theorem lt_of_mem_map_toNat (bytes : List UInt8) : ∀ d ∈ bytes.map UInt8.toNat, d < 256 := by
  intro d hd
  obtain ⟨byte, -, rfl⟩ := List.mem_map.mp hd
  exact byte.toNat_lt

theorem ofDigits_lt {header : List UInt8} (h : header.length = 4) :
    Nat.ofDigits 256 (header.map UInt8.toNat) < 2 ^ 32 := by
  have hlt := Nat.ofDigits_lt_base_pow_length (by decide) (lt_of_mem_map_toNat header)
  rw [List.length_map, h] at hlt
  exact hlt

theorem intToStr_ofDigits {header : List UInt8} (h : header.length = 4) :
    intToStr (Nat.ofDigits 256 (header.map UInt8.toNat)) = header := by
  refine List.map_injective_iff.mpr (fun _ _ heq => UInt8.toNat_inj.mp heq) ?_
  exact Nat.ofDigits_inj_of_len_eq (b := 256) (by decide) (by simp [length_intToStr, h])
    (lt_of_mem_map_toNat _) (lt_of_mem_map_toNat _) (ofDigits_intToStr (ofDigits_lt h))

theorem bmod_of_nonneg {n : ℕ} (hlt : n < 2 ^ 32) (h : 0 ≤ (n : ℤ).bmod (2 ^ 32)) :
    (n : ℤ).bmod (2 ^ 32) = n ∧ n < 2 ^ 31 := by
  unfold Int.bmod at h ⊢
  have hmod : (n : ℤ) % ((2 ^ 32 : ℕ) : ℤ) = n := by omega
  simp only [hmod] at h ⊢
  split at h <;> split <;> omega

/-- A length that is not negative is the one that has been put in. -/
theorem intToStr_strToInt {header : List UInt8} (h : header.length = 4)
    (hnonneg : 0 ≤ strToInt header) :
    intToStr (strToInt header).toNat = header ∧ (strToInt header).toNat < 2 ^ 31 := by
  rw [strToInt, BitVec.toInt_ofNat'] at hnonneg
  obtain ⟨heq, hlt⟩ := bmod_of_nonneg (ofDigits_lt h) hnonneg
  rw [strToInt, BitVec.toInt_ofNat', heq, Int.toNat_natCast]
  exact ⟨intToStr_ofDigits h, hlt⟩

theorem strToInt_intToStr {i : ℕ} (h : i < 2 ^ 31) : strToInt (intToStr i) = i := by
  rw [strToInt, ofDigits_intToStr (by omega), BitVec.toInt_ofNat', Int.bmod_eq_of_le] <;> omega

/-- What `send` writes for a message. -/
def frame (message : Message) : List UInt8 := intToStr message.length ++ message

/-- A length that an `int` can have. -/
def Short (message : Message) : Prop := message.length < 2 ^ 31

theorem prefixCode_frame : PrefixCode Short frame :=
  PrefixCode.of_header (p := (· < 2 ^ 31)) (by decide) length_intToStr
    fun m n hm hn heq => by
      have hcast : (m : ℤ) = n := by
        rw [← strToInt_intToStr hm, ← strToInt_intToStr hn, heq]
      exact Int.ofNat.inj hcast

end UniversalDB.ChannelImpl
