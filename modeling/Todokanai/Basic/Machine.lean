import Mathlib

/-!
# Fixed-width integers of the C++ source

The store computes with `std::uint32_t` block indices and `std::uint64_t` orders and sizes, and
some of its guards only make sense with the wrap-around of these types (`it->second + block <
block`, `_order - 1 >= INT64_MAX`). The model keeps them as `UInt32` and `UInt64`; this file
provides the few facts that move a comparison or a sum of them to `Nat`, where `omega` decides
it. The library of this toolchain states `UInt32.toNat_add` and `UInt32.toNat_sub` but not the
order facts.
-/

namespace UInt32

theorem lt_iff_toNat_lt {a b : UInt32} : a < b ↔ a.toNat < b.toNat := by
  rw [lt_def, BitVec.lt_def]; rfl

theorem le_iff_toNat_le {a b : UInt32} : a ≤ b ↔ a.toNat ≤ b.toNat := by
  rw [le_def, BitVec.le_def]; rfl

theorem eq_iff_toNat_eq {a b : UInt32} : a = b ↔ a.toNat = b.toNat :=
  ⟨fun h => h ▸ rfl, toNat.inj⟩

/-- Setting a bit with `|=` leaves it set: `(x | b) & b == b`. -/
theorem or_and_self (x b : UInt32) : (x ||| b) &&& b = b := by
  apply UInt32.eq_of_toBitVec_eq
  change (x.toBitVec ||| b.toBitVec) &&& b.toBitVec = b.toBitVec
  apply BitVec.eq_of_getLsbD_eq
  intro i
  simp only [BitVec.getLsbD_and, BitVec.getLsbD_or]
  cases x.toBitVec.getLsbD i <;> simp

theorem toNat_add_of_lt {a b : UInt32} (h : a.toNat + b.toNat < 2 ^ 32) :
    (a + b).toNat = a.toNat + b.toNat := by
  rw [toNat_add, size]; omega

theorem toNat_add_of_le {a b : UInt32} (h : 2 ^ 32 ≤ a.toNat + b.toNat) :
    (a + b).toNat = a.toNat + b.toNat - 2 ^ 32 := by
  have := a.toNat_lt; have := b.toNat_lt
  rw [toNat_add, size]; omega

theorem toNat_sub_of_le' {a b : UInt32} (h : b.toNat ≤ a.toNat) :
    (a - b).toNat = a.toNat - b.toNat := by
  have := a.toNat_lt
  rw [toNat_sub, size]; omega

end UInt32

namespace UInt64

theorem lt_iff_toNat_lt {a b : UInt64} : a < b ↔ a.toNat < b.toNat := by
  rw [lt_def, BitVec.lt_def]; rfl

theorem le_iff_toNat_le {a b : UInt64} : a ≤ b ↔ a.toNat ≤ b.toNat := by
  rw [le_def, BitVec.le_def]; rfl

theorem eq_iff_toNat_eq {a b : UInt64} : a = b ↔ a.toNat = b.toNat :=
  ⟨fun h => h ▸ rfl, toNat.inj⟩

theorem toNat_add_of_lt {a b : UInt64} (h : a.toNat + b.toNat < 2 ^ 64) :
    (a + b).toNat = a.toNat + b.toNat := by
  rw [toNat_add, size]; omega

theorem toNat_sub_of_le' {a b : UInt64} (h : b.toNat ≤ a.toNat) :
    (a - b).toNat = a.toNat - b.toNat := by
  have := a.toNat_lt
  rw [toNat_sub, size]; omega

end UInt64

@[simp] theorem Nat.toNat_toUInt32 (n : Nat) : n.toUInt32.toNat = n % 2 ^ 32 := by
  simp [Nat.toUInt32, UInt32.toNat, UInt32.ofNat, BitVec.ofNat, Fin.ofNat]

@[simp] theorem Nat.toNat_toUInt64 (n : Nat) : n.toUInt64.toNat = n % 2 ^ 64 := by
  simp [Nat.toUInt64, UInt64.toNat, UInt64.ofNat, BitVec.ofNat, Fin.ofNat]

@[simp] theorem UInt32.toNat_toUInt64 (a : UInt32) : a.toUInt64.toNat = a.toNat := rfl
