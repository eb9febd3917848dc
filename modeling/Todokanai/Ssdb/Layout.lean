import Todokanai.Basic.Machine

/-!
# Blocks, controls, the combined hash and the disk of `ssdb::umap`

The map stores every record as a run of plaintext blocks of the encrypted view. A block holds a
big-endian `order`, a big-endian `size` (`0` for a terminator, `2^64 - 1` for a continuation) and a
4032-byte data field. The combined hash `m_hash` is a 64-byte array into which `combine` XORs the
HMAC of each live `(order, head block)` pair.

* `BlockLayout`: `ssdb::block_layout`, with the data field as the bytes it starts with, the rest of
  its 4032 bytes being zero; `dataPrefix b k` reads its first `k` bytes.
* `Control`: `ssdb::control`, the order and the loaded and newly written runs of an entry.
* `Digest`: the array `m_hash`, read as a number below `2^512` whose base-256 digits are its bytes,
  so that XOR of arrays is XOR of numbers; `Digest.bytes` is what `dump` copies and `check`
  compares.
* `Disk`: the view as the map uses it, `read_block` and `write_block` on plaintext blocks, with the
  writes issued since the last `flush` kept apart so that a crash can lose any of them.

The reserved words `x10` and `x18` of `block_layout` are written as zero and never read, so they
are left out. The encryption is left out too: a block that does not verify reads as `none`, like a
block past the end of the file. `Todokanai.Sfs.View` models the same view at the level of bytes.

Source: `src/src/util/ssdb.hpp`, `block_layout` and `control` (lines 18–49), `combined_hash`
(lines 51–82); `src/src/util/ssdb.cpp`, lines 4–41; `sfs::view::read_block`, `write_block` and
`flush` in `src/src/util/sfs.cpp`, lines 207–322.
-/

namespace Todokanai.Ssdb

/-- `sizeof(block_layout::data)`: the payload less the four 64-bit header words. -/
def dataSize : Nat := 4032

/-- `ssdb::block_layout`, the plaintext of one block. -/
structure BlockLayout where
  /-- Unique increasing identifier of the block sequence, from 1. -/
  order : UInt64
  /-- Data size; `0` for a terminator, `2^64 - 1` for a continuation. -/
  size : UInt64
  /-- The data field: these bytes, then zeros up to `dataSize`. -/
  data : List UInt8
  data_le : data.length ≤ dataSize
  deriving DecidableEq

/-- The first `k` bytes of the data field of `b`, for `k ≤ dataSize`. -/
def BlockLayout.dataPrefix (b : BlockLayout) (k : Nat) : List UInt8 :=
  (b.data ++ List.replicate k 0).take k

theorem BlockLayout.length_dataPrefix (b : BlockLayout) (k : Nat) :
    (b.dataPrefix k).length = k := by
  simp [dataPrefix]

/-- `ssdb::control`. `order = 0` marks an entry that must be assigned an order and written. -/
structure Control where
  order : UInt64
  /-- The loaded or flushed run, freed after the next successful flush. -/
  loadBlock : UInt32
  loadCount : UInt32
  /-- The run written since the last flush, promoted to the loaded run by it. -/
  newBlock : UInt32
  newCount : UInt32
  deriving DecidableEq, Inhabited

/-- `ssdb::null_control`. -/
def nullControl : Control := ⟨0, 0, 0, 0, 0⟩

/-- The run whose head a control's order belongs to: the new run once there is one. -/
def Control.head (c : Control) : UInt32 :=
  if c.newCount ≠ 0 then c.newBlock else c.loadBlock

/-! ### The combined hash -/

/-- `combined_hash::m_hash`, the 64-byte array read as a number below `2^512`. -/
structure Digest where
  val : Nat
  lt : val < 2 ^ 512
  deriving DecidableEq

namespace Digest

instance : Zero Digest := ⟨⟨0, by apply Nat.two_pow_pos⟩⟩

set_option exponentiation.threshold 512 in
/-- The byte-wise XOR of `combine`. -/
instance : Xor Digest := ⟨fun a b => ⟨a.val ^^^ b.val, Nat.xor_lt_two_pow a.lt b.lt⟩⟩

@[ext] theorem ext {a b : Digest} (h : a.val = b.val) : a = b := by
  cases a; cases b; cases h; rfl

@[simp] theorem val_xor (a b : Digest) : (a ^^^ b).val = a.val ^^^ b.val := rfl

@[simp] theorem val_zero : (0 : Digest).val = 0 := rfl

theorem xor_assoc (a b c : Digest) : a ^^^ b ^^^ c = a ^^^ (b ^^^ c) :=
  ext (Nat.xor_assoc _ _ _)

theorem xor_comm (a b : Digest) : a ^^^ b = b ^^^ a :=
  ext (Nat.xor_comm _ _)

instance : Std.Associative (fun a b : Digest => a ^^^ b) := ⟨xor_assoc⟩

instance : Std.Commutative (fun a b : Digest => a ^^^ b) := ⟨xor_comm⟩

@[simp] theorem xor_self (a : Digest) : a ^^^ a = 0 :=
  ext (Nat.xor_self _)

@[simp] theorem xor_zero (a : Digest) : a ^^^ 0 = a :=
  ext (Nat.xor_zero _)

@[simp] theorem zero_xor (a : Digest) : 0 ^^^ a = a :=
  ext (Nat.zero_xor _)

@[simp] theorem xor_cancel_right (a b : Digest) : a ^^^ b ^^^ b = a := by
  rw [xor_assoc, xor_self, xor_zero]

/-- The 64 bytes of the array, as `dump` copies them. -/
def bytes (d : Digest) : List UInt8 :=
  List.ofFn fun j : Fin 64 => (d.val / 256 ^ j.val).toUInt8

/-- The bytes of `x`, `x / 256`, …, read back little-endian, give `x` modulo `256^n`. -/
theorem foldr_ofFn_toUInt8 (n : Nat) : ∀ x : Nat,
    (List.ofFn fun j : Fin n => (x / 256 ^ j.val).toUInt8).foldr
      (fun b acc => b.toNat + 256 * acc) 0 = x % 256 ^ n := by
  induction n with
  | zero => intro x; simp [Nat.mod_one]
  | succ n ih =>
    intro x
    have hdiv : ∀ j : Fin n, x / 256 ^ (j.succ : Nat) = x / 256 / 256 ^ (j : Nat) := fun j => by
      rw [Fin.val_succ, Nat.pow_succ', Nat.div_div_eq_div_mul]
    simp only [List.ofFn_succ, List.foldr_cons, hdiv, ih, Fin.val_zero, Nat.pow_zero, Nat.div_one,
      Nat.pow_succ', Nat.mod_mul]
    simp [Nat.toUInt8, UInt8.toNat, UInt8.ofNat, Fin.ofNat]

/-- `dump` loses nothing: two arrays with the same bytes are equal. -/
theorem bytes_injective {a b : Digest} (h : a.bytes = b.bytes) : a = b := by
  have value : ∀ d : Digest, d.bytes.foldr (fun b acc => b.toNat + 256 * acc) 0 = d.val :=
    fun d => by
      rw [bytes, foldr_ofFn_toUInt8, Nat.mod_eq_of_lt (lt_of_lt_of_eq d.lt (by norm_num))]
  ext
  rw [← value a, ← value b, h]

end Digest

/-! ### The disk -/

/-- Write the plaintext `b` at block `i` of a file, past its end leaving blocks that do not
verify. -/
def putBlock (bs : List (Option BlockLayout)) (w : Nat × BlockLayout) : List (Option BlockLayout) :=
  if w.1 < bs.length then bs.set w.1 (some w.2)
  else bs ++ List.replicate (w.1 - bs.length) none ++ [some w.2]

theorem get?_putBlock_self {bs : List (Option BlockLayout)} {i : Nat} (b : BlockLayout)
    (h : i ≤ bs.length) : (putBlock bs (i, b)).get? i = some (some b) := by
  unfold putBlock
  split_ifs with hi
  · simp [List.get?_eq_getElem?, hi]
  · have : i = bs.length := by omega
    subst this; simp [List.get?_eq_getElem?]

/-- The encrypted view `sfs::view` as the map uses it. -/
structure Disk where
  /-- What `read_block` returns for each block at the last `flush`: the plaintext, or `none`
  where it fails. -/
  durable : List (Option BlockLayout)
  /-- The block writes issued since the last `flush`, oldest first. -/
  unsynced : List (Nat × BlockLayout)
  /-- The outcomes of the coming `write_block` calls that pass the range check: `true` fails (in
  the random generator, the cipher or the OS). Once used up, calls succeed. -/
  failures : List Bool
  deriving DecidableEq

namespace Disk

/-- The blocks as `read_block` sees them now. -/
def blocks (d : Disk) : List (Option BlockLayout) :=
  d.unsynced.foldl putBlock d.durable

/-- `view::count()`. -/
def count (d : Disk) : Nat :=
  d.blocks.length

/-- `view::read_block(i, out)`: the plaintext of block `i`, or `none` where it fails. -/
def readBlock (d : Disk) (i : Nat) : Option BlockLayout :=
  (d.blocks.get? i).join

/-- `view::write_block(i, in)`: fails beyond the end of the file and where the next outcome is a
failure, and otherwise issues the write. Returns whether it succeeded. -/
def writeBlock (d : Disk) (i : Nat) (b : BlockLayout) : Bool × Disk :=
  if d.count < i then (false, d) else
  match d.failures with
  | true :: fs => (false, { d with failures := fs })
  | false :: fs => (true, { d with unsynced := d.unsynced ++ [(i, b)], failures := fs })
  | [] => (true, { d with unsynced := d.unsynced ++ [(i, b)] })

/-- `view::flush()`: every issued write becomes durable. -/
def flush (d : Disk) : Disk :=
  { d with durable := d.blocks, unsynced := [] }

/-- The file after a crash: the durable blocks and the unsynced writes that `keep` selects, each
whole. -/
def crash (d : Disk) (keep : Nat → Bool) : List (Option BlockLayout) :=
  ((d.unsynced.zip (List.range d.unsynced.length)).filter (fun w => keep w.2)).foldl
    (fun bs w => putBlock bs w.1) d.durable

@[simp] theorem readBlock_flush (d : Disk) (i : Nat) : d.flush.readBlock i = d.readBlock i := rfl

/-- A `write_block` that succeeds is read back by `read_block`. -/
theorem readBlock_writeBlock {d : Disk} {i : Nat} {b : BlockLayout}
    (h : (d.writeBlock i b).1 = true) : (d.writeBlock i b).2.readBlock i = some b := by
  have put : ∀ fs,
      ({ d with unsynced := d.unsynced ++ [(i, b)], failures := fs } : Disk).readBlock i
      = (putBlock d.blocks (i, b) |>.get? i).join := fun _ => by
    simp only [readBlock, blocks, List.foldl_append, List.foldl_cons, List.foldl_nil]
  unfold writeBlock at h ⊢
  split_ifs at h ⊢ with hc
  rw [count, Nat.not_lt] at hc
  revert h
  split <;> intro h
  · cases h
  · rw [put, get?_putBlock_self b hc]; rfl
  · rw [put, get?_putBlock_self b hc]; rfl

/-- The view opened on a file, with the given outcomes for its coming writes. -/
def ofFile (file : List (Option BlockLayout)) (failures : List Bool) : Disk :=
  ⟨file, [], failures⟩

end Disk

end Todokanai.Ssdb
