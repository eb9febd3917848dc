import Todokanai.Basic.Machine
import Todokanai.Sstl.Reader

/-!
# The Base57 text of a public key

`to::pubkey` holds a 32-byte X25519 key. `base57()` writes it as 44 characters: each 8-byte block,
read as a big-endian `uint64`, becomes 11 digits in base 57 over the palette of digits, upper-case
letters without `B`, `D`, `I`, `O` and lower-case letters without `l`, most significant first.
`base57(const char*)` checks that the first 44 characters are in the palette, through the table
`base57_lut` that maps a character to its position or to `57`, and then folds each group of 11
into a `uint64` by `value = value * 57 + digit`.

Since `57^11 > 2^64`, every block has a text, and the text of a key reads back as that key
(`base57_round_trip`). The converse fails: the fold wraps modulo `2^64`, so a group of 11 digits
worth `2^64` or more is accepted and read as its value less `2^64`. `"txLqViLENCy"` is `2^64` in
base 57, and followed by 33 zeros it is accepted as the zero key, whose text is 44 zeros
(`base57_accepts_wrapped_block`).

* `palette`, `lut`: `s_base57_palette` and `base57_lut`.
* `beLoad`, `beStore`: `std::be_load` and `std::be_store` of a `uint64`, over the big-endian
  bytes of `Todokanai.Sstl.beBytes`.
* `encodeDigits`, `encodeBlocks`, `Pubkey.base57`: `pubkey::base57() const` and its two loops.
* `decodeDigits`, `decodeBlocks`, `Pubkey.ofBase57`: `pubkey::base57(const char*)`; `none` is its
  `return false`, which leaves the key as it was.

`std::be_load` and `std::be_store` are declared in `util/endian.hpp`, which is not among the
sources; they are taken to load and store a `uint64` as eight bytes, most significant first.

Source: `src/unnamed/part_000`, `s_base57_palette` and `base57_lut` (lines 9–41),
`pubkey::base57() const` (lines 62–83), `pubkey::base57(const char*)` (lines 85–114); `to::pubkey`
in `src/unnamed/part_001`, lines 12–16.
-/

namespace Todokanai.Keys

open Todokanai.Sstl

/-! ### The palette -/

/-- `s_base57_palette`: numbers, latin upper case without `B`, `D`, `I`, `O`, latin lower case
without `l`. -/
def palette : List UInt8 :=
  "0123456789ACEFGHJKLMNPQRSTUVWXYZabcdefghijkmnopqrstuvwxyz".toList.map Char.toUInt8

/-- `base57_lut[c]`: the first position of `c` in the palette, or `57` when it is not there, as
`base57_lookup` computes it. -/
def lut (c : UInt8) : UInt8 :=
  (palette.indexOf c).toUInt8

theorem length_palette : palette.length = 57 := by decide

theorem nodup_palette : palette.Nodup := by decide

/-- The table inverts the palette. -/
theorem toNat_lut (c : UInt8) : (lut c).toNat = palette.indexOf c := by
  have h : palette.indexOf c ≤ 57 := length_palette ▸ List.indexOf_le_length
  exact UInt8.toNat_ofNat_of_lt (show _ < 256 by omega)

/-- The table accepts exactly the characters of the palette. -/
theorem lut_lt_iff (c : UInt8) : lut c < 57 ↔ c ∈ palette := by
  rw [← List.indexOf_lt_length, length_palette, ← toNat_lut]; rfl

/-- The table inverts the palette. -/
theorem lut_getD {d : Nat} (h : d < 57) : lut (palette.getD d 0) = d.toUInt8 := by
  rw [lut, List.getD_eq_getElem _ _ (by rw [length_palette]; exact h),
    List.indexOf_getElem nodup_palette]

theorem getD_mem_palette {d : Nat} (h : d < 57) : palette.getD d 0 ∈ palette := by
  rw [List.getD_eq_getElem _ _ (by rw [length_palette]; exact h)]
  exact List.getElem_mem _

/-- The palette inverts the table on the characters it accepts. -/
theorem getD_lut {c : UInt8} (h : c ∈ palette) : palette.getD (lut c).toNat 0 = c := by
  rw [toNat_lut, List.getD_eq_getElem _ _ (List.indexOf_lt_length.mpr h), List.getElem_indexOf]

/-! ### Big-endian blocks -/

/-- `std::be_load(value, ptr)` for a `std::uint64_t`: the eight bytes at `ptr`, most significant
first. -/
def beLoad (bytes : List UInt8) : UInt64 :=
  (beNat (bytes.take 8)).toUInt64

/-- `std::be_store(ptr, value)` for a `std::uint64_t`. -/
def beStore (value : UInt64) : List UInt8 :=
  beBytes 8 value.toNat

@[simp] theorem length_beStore (value : UInt64) : (beStore value).length = 8 :=
  length_beBytes _ _

theorem beStore_beLoad {bytes : List UInt8} (h : 8 ≤ bytes.length) :
    beStore (beLoad bytes) = bytes.take 8 := by
  have hlen : (bytes.take 8).length = 8 := by rw [List.length_take, Nat.min_eq_left h]
  have hlt := beNat_lt (bytes.take 8)
  rw [hlen] at hlt
  rw [beStore, beLoad, Nat.toNat_toUInt64, Nat.mod_eq_of_lt (by simpa using hlt),
    beBytes_beNat hlen]

theorem beLoad_beStore (value : UInt64) : beLoad (beStore value) = value := by
  rw [beLoad, beStore, List.take_of_length_le (by simp), beNat_beBytes, UInt64.eq_iff_toNat_eq,
    Nat.toNat_toUInt64, Nat.mod_mod_of_dvd _ (by norm_num)]
  exact Nat.mod_eq_of_lt value.toNat_lt

/-! ### `pubkey::base57() const` -/

/-- The digit loop of `pubkey::base57() const`: `j` characters for `value`, the character of
`value % 57` last and the others for `value / 57`. -/
def encodeDigits : Nat → UInt64 → List UInt8
  | 0, _ => []
  | j + 1, value => encodeDigits j (value / 57) ++ [palette.getD (value % 57).toNat 0]

/-- The block loop of `pubkey::base57() const`: 11 characters for each of `n` blocks of 8 bytes. -/
def encodeBlocks : Nat → List UInt8 → List UInt8
  | 0, _ => []
  | n + 1, key => encodeDigits 11 (beLoad key) ++ encodeBlocks n (key.drop 8)

/-- `to::pubkey`: the 32 bytes of `m_key`. -/
structure Pubkey where
  key : List UInt8
  length_key : key.length = 32
  deriving DecidableEq

/-- `pubkey::base57() const`: 11 characters for each of the four blocks. -/
def Pubkey.base57 (k : Pubkey) : List UInt8 :=
  encodeBlocks 4 k.key

@[simp] theorem length_encodeDigits (j : Nat) (value : UInt64) :
    (encodeDigits j value).length = j := by
  induction j generalizing value with
  | zero => rfl
  | succ j ih => simp [encodeDigits, ih]

@[simp] theorem length_encodeBlocks (n : Nat) (key : List UInt8) :
    (encodeBlocks n key).length = 11 * n := by
  induction n generalizing key with
  | zero => rfl
  | succ n ih => simp only [encodeBlocks, List.length_append, length_encodeDigits, ih]; ring

theorem mem_palette_of_mem_encodeDigits {j : Nat} {value : UInt64} {c : UInt8}
    (h : c ∈ encodeDigits j value) : c ∈ palette := by
  induction j generalizing value with
  | zero => cases h
  | succ j ih =>
    rcases List.mem_append.mp h with h | h
    · exact ih h
    · rw [List.mem_singleton.mp h, UInt64.toNat_mod]
      exact getD_mem_palette (Nat.mod_lt _ (by decide))

theorem mem_palette_of_mem_encodeBlocks {n : Nat} {key : List UInt8} {c : UInt8}
    (h : c ∈ encodeBlocks n key) : c ∈ palette := by
  induction n generalizing key with
  | zero => cases h
  | succ n ih =>
    rcases List.mem_append.mp h with h | h
    exacts [mem_palette_of_mem_encodeDigits h, ih h]

/-! ### `pubkey::base57(const char*)` -/

/-- The digit loop of `pubkey::base57(const char*)`: `value *= 57; value += base57_lut[c]` for each
character, in `uint64`. -/
def decodeDigits (value : UInt64) : List UInt8 → UInt64
  | [] => value
  | c :: cs => decodeDigits (value * 57 + (lut c).toUInt64) cs

/-- The block loop: each group of 11 characters stored as 8 big-endian bytes. -/
def decodeBlocks : Nat → List UInt8 → List UInt8
  | 0, _ => []
  | n + 1, text => beStore (decodeDigits 0 (text.take 11)) ++ decodeBlocks n (text.drop 11)

@[simp] theorem length_decodeBlocks (n : Nat) (text : List UInt8) :
    (decodeBlocks n text).length = 8 * n := by
  induction n generalizing text with
  | zero => rfl
  | succ n ih => simp only [decodeBlocks, List.length_append, length_beStore, ih]; ring

/-- `pubkey::base57(const char* ptr)`: the key of the first 44 characters of `ptr`, or `none` where
the source returns `false` and leaves the key. A string that ends earlier is read up to its
terminating `0`, which the table rejects. -/
def Pubkey.ofBase57 (ptr : List UInt8) : Option Pubkey :=
  if (List.range 44).all fun i => lut (ptr.getD i 0) < 57 then
    some ⟨decodeBlocks 4 ptr, length_decodeBlocks 4 ptr⟩
  else none

theorem decodeDigits_append (value : UInt64) (cs cs' : List UInt8) :
    decodeDigits value (cs ++ cs') = decodeDigits (decodeDigits value cs) cs' := by
  induction cs generalizing value with
  | nil => rfl
  | cons c cs ih => exact ih _

/-- Reading back the `j` digits of `value` after `acc`: `acc · 57^j + value mod 57^j`, wrapped to
`uint64`. -/
theorem toNat_decodeDigits_encodeDigits (j : Nat) (acc value : UInt64) :
    (decodeDigits acc (encodeDigits j value)).toNat =
      (acc.toNat * 57 ^ j + value.toNat % 57 ^ j) % 2 ^ 64 := by
  induction j generalizing value with
  | zero => simp only [encodeDigits, decodeDigits, pow_zero, Nat.mul_one, Nat.mod_one, Nat.add_zero,
      Nat.mod_eq_of_lt acc.toNat_lt]
  | succ j ih =>
    have hd : (value % 57).toNat < 57 := by rw [UInt64.toNat_mod]; exact Nat.mod_lt _ (by decide)
    rw [encodeDigits, decodeDigits_append, decodeDigits, decodeDigits, lut_getD hd]
    have hdigit : ((value % 57).toNat.toUInt8.toUInt64).toNat = value.toNat % 57 := by
      change (value % 57).toNat % 256 = _
      rw [UInt64.toNat_mod] at hd ⊢
      exact Nat.mod_eq_of_lt (by omega)
    have hsplit : acc.toNat * 57 ^ (j + 1) + value.toNat % 57 ^ (j + 1) =
        (acc.toNat * 57 ^ j + value.toNat / 57 % 57 ^ j) * 57 + value.toNat % 57 := by
      rw [pow_succ, Nat.mul_comm (57 ^ j) 57, Nat.mod_mul]; ring
    have h57 : (57 : UInt64).toNat = 57 := rfl
    have hsize : UInt64.size = 2 ^ 64 := rfl
    rw [UInt64.toNat_add, UInt64.toNat_mul, ih, hdigit, UInt64.toNat_div, hsplit, h57, hsize,
      Nat.mod_add_mod]
    exact ((Nat.mod_modEq _ _).mul_right 57).add_right _

/-- Eleven digits hold a `uint64`, since `57^11 > 2^64`: they read back as the value. -/
theorem decodeDigits_encodeDigits (value : UInt64) :
    decodeDigits 0 (encodeDigits 11 value) = value := by
  have hlt : value.toNat < 57 ^ 11 := lt_of_lt_of_le value.toNat_lt (by norm_num)
  rw [UInt64.eq_iff_toNat_eq, toNat_decodeDigits_encodeDigits, UInt64.toNat_zero, Nat.zero_mul,
    Nat.zero_add, Nat.mod_eq_of_lt hlt, Nat.mod_eq_of_lt value.toNat_lt]

theorem decodeBlocks_encodeBlocks (n : Nat) {key : List UInt8} (h : key.length = 8 * n) :
    decodeBlocks n (encodeBlocks n key) = key := by
  induction n generalizing key with
  | zero => exact (List.length_eq_zero.mp h).symm
  | succ n ih =>
    rw [encodeBlocks, decodeBlocks, List.take_left' (length_encodeDigits _ _),
      List.drop_left' (length_encodeDigits _ _), decodeDigits_encodeDigits,
      beStore_beLoad (by omega),
      ih (by rw [List.length_drop, h]; omega), List.take_append_drop]

/-- The text of a key passes the check of `pubkey::base57(const char*)`. -/
theorem all_lut_encodeBlocks (key : List UInt8) :
    ((List.range 44).all fun i => lut ((encodeBlocks 4 key).getD i 0) < 57) = true := by
  rw [List.all_eq_true]
  intro i hi
  rw [List.mem_range] at hi
  rw [decide_eq_true_eq, lut_lt_iff,
    List.getD_eq_getElem _ _ (by rw [length_encodeBlocks]; exact hi)]
  exact mem_palette_of_mem_encodeBlocks (List.getElem_mem _)

/-! ### The round trip and its converse -/

/-- The text of every key is 44 characters of the palette and reads back as the key. -/
theorem base57_round_trip (k : Pubkey) :
    k.base57.length = 44 ∧ (∀ c ∈ k.base57, c ∈ palette) ∧ Pubkey.ofBase57 k.base57 = some k := by
  refine ⟨length_encodeBlocks _ _, fun c hc => mem_palette_of_mem_encodeBlocks hc, ?_⟩
  obtain ⟨key, hkey⟩ := k
  simp only [Pubkey.ofBase57, Pubkey.base57, all_lut_encodeBlocks, if_true, Option.some.injEq,
    Pubkey.mk.injEq]
  exact decodeBlocks_encodeBlocks 4 hkey

/-- A text whose first block is worth `2^64` is accepted, as the zero key: its digits
`"txLqViLENCy"` wrap to `0`. The zero key's own text is 44 zeros, so two texts are accepted for
one key and the first is not the text of the key it reads as. -/
theorem base57_accepts_wrapped_block :
    ("txLqViLENCy000000000000000000000000000000000".toList.map Char.toUInt8).length = 44 ∧
      ∃ k : Pubkey, Pubkey.ofBase57 ("txLqViLENCy000000000000000000000000000000000".toList.map
        Char.toUInt8) = some k ∧
      k.base57 ≠ "txLqViLENCy000000000000000000000000000000000".toList.map Char.toUInt8 ∧
      k.base57 = "00000000000000000000000000000000000000000000".toList.map Char.toUInt8 :=
  ⟨by decide, ⟨List.replicate 32 0, rfl⟩, by decide, by decide, by decide⟩

end Todokanai.Keys
