import Todokanai.Basic.Machine

/-!
# The block and stream API of `sfs::view`

An `sfs::view` is a file of 4096-byte blocks, each the AES-GCM encryption of 4064 bytes of
plaintext. `read_block` and `write_block` move one plaintext block; `read` and `write` present the
blocks as one stream of bytes, and pass a block that a request covers only in part through the
scratch block `m_buf`: read, patched and written back by `write`, decrypted and copied out by
`read`, and cleansed after use.

The view is modelled by `m_count`, the plaintext that each block of the file decrypts to, and
`m_buf`. `read_block` fails exactly at or past `m_count` and `write_block` exactly past it; the
encryption, the file system calls and their failures are left out, and `ftruncate` succeeds.
Offsets and sizes are `std::uint64_t`: the model keeps them as `Nat` and wraps them modulo `2^64`
where the code can overflow, in `m_count * block_size`, `m_count * 4096` and `offset += _size`.

* `View.readBlock`, `View.writeBlock`, `View.trunc`: `read_block`, `write_block` and `trunc`.
* `View.write`, `View.read`: `write` and `read`, loops over the chunks `writeChunk` and
  `readChunk`, one block each.
* `View.byteAt`: the byte at a position of the stream, `0` past the end of the file.
* `writeChunk_ok`, `writeLoop_ok`: in this model `write` never stops halfway, and leaves `m_buf`
  zero. `writeLoop_byteAt`, `readLoop_spec`, `trunc_spec`: what the loops do to the stream when no
  offset wraps.

Source: `src/src/util/sfs.hpp` (lines 26–96); `src/src/util/sfs.cpp`, `view::read_block` and
`view::write_block` (lines 207–313), `trunc`, `read` and `write` (lines 390–538).
-/

namespace Todokanai.Sfs

/-- `sfs::block_size`: a block of the file less its nonce and its tag. -/
def blockSize : Nat := 4096 - 32

theorem blockSize_eq : blockSize = 4064 := rfl

/-- A plaintext block. -/
abbrev Block := Fin blockSize → UInt8

namespace Block

/-- The byte at `j`, `0` past the end of the block. -/
def get (b : Block) (j : Nat) : UInt8 :=
  if h : j < blockSize then b ⟨j, h⟩ else 0

/-- `memcpy(b + start, src, n)`, or `memset(b + start, 0, n)` with `src = 0`. -/
def copy (b : Block) (start n : Nat) (src : Nat → UInt8) : Block :=
  fun j => if start ≤ j.val ∧ j.val < start + n then src (j.val - start) else b j

@[simp] theorem get_zero (j : Nat) : (0 : Block).get j = 0 := by
  unfold get; split <;> rfl

theorem get_of_lt (b : Block) {j : Nat} (h : j < blockSize) : b.get j = b ⟨j, h⟩ := dif_pos h

@[simp] theorem copy_full_zero (b : Block) : b.copy 0 blockSize 0 = 0 :=
  funext fun j => if_pos ⟨Nat.zero_le _, j.isLt⟩

@[simp] theorem zero_copy_zero (s n : Nat) : (0 : Block).copy s n (fun _ => 0) = 0 :=
  funext fun j => by unfold copy; split <;> rfl

end Block

/-- `sfs::view`: `m_count`, the plaintext that each block of the file decrypts to, and `m_buf`.
Blocks at or past `count` are not in the file; what `blocks` holds for them is never read. -/
@[ext] structure View where
  count : Nat
  blocks : Nat → Block
  scratch : Block

namespace View

/-- `size()`: `m_count * block_size` as a `std::uint64_t`. -/
def size (v : View) : Nat :=
  v.count * blockSize % 2 ^ 64

/-- `read_block(block, buf)`: the plaintext of a block of the file; `false` past its end. -/
def readBlock (v : View) (block : Nat) : Option Block :=
  if block < v.count then some (v.blocks block) else none

/-- `write_block(block, buf)`: replace a block of the file, or append one at `m_count`; `false`
past that. -/
def writeBlock (v : View) (block : Nat) (b : Block) : Option View :=
  if block ≤ v.count then
    some { v with blocks := Function.update v.blocks block b,
                  count := if block = v.count then block + 1 else v.count }
  else none

/-- The byte at `p` of the stream: in the block `p / block_size` of the file, `0` past its end. -/
def byteAt (v : View) (p : Nat) : UInt8 :=
  if p / blockSize < v.count then (v.blocks (p / blockSize)).get (p % blockSize) else 0

theorem readBlock_of_lt {v : View} {i : Nat} (h : i < v.count) :
    v.readBlock i = some (v.blocks i) := if_pos h

theorem writeBlock_of_le {v : View} {i : Nat} (b : Block) (h : i ≤ v.count) :
    v.writeBlock i b = some { v with blocks := Function.update v.blocks i b,
                                     count := max v.count (i + 1) } := by
  simp only [writeBlock, if_pos h, Option.some.injEq]
  congr 1; split <;> omega

theorem byteAt_of_le {v : View} {p : Nat} (h : v.count ≤ p / blockSize) : v.byteAt p = 0 :=
  if_neg (by omega)

/-- Filling `[a, a + m + k)` in two steps, `[a, a + m)` with `f` and then `[a + m, a + m + k)` with
`g`, is one fill with `h` where `f` and `g` agree with `h`. -/
theorem ite_range_append {α : Type} {a m k p : Nat} {f g h : Nat → α} {x : α}
    (hf : a ≤ p → p < a + m → f p = h p) (hg : a + m ≤ p → p < a + m + k → g p = h p) :
    (if a + m ≤ p ∧ p < a + m + k then g p else if a ≤ p ∧ p < a + m then f p else x) =
      if a ≤ p ∧ p < a + m + k then h p else x := by
  by_cases h1 : a + m ≤ p ∧ p < a + m + k
  · rw [if_pos h1, if_pos (by omega), hg h1.1 h1.2]
  · rw [if_neg h1]
    by_cases h2 : a ≤ p ∧ p < a + m
    · rw [if_pos h2, if_pos (by omega), hf h2.1 h2.2]
    · rw [if_neg h2, if_neg (by omega)]

theorem byteAt_add {v : View} {o i : Nat} (hb : o / blockSize < v.count)
    (hi : o % blockSize + i < blockSize) :
    v.byteAt (o + i) = (v.blocks (o / blockSize)).get (o % blockSize + i) := by
  have h1 : (o + i) / blockSize = o / blockSize := by rw [blockSize_eq] at *; omega
  have h2 : (o + i) % blockSize = o % blockSize + i := by rw [blockSize_eq] at *; omega
  simp only [byteAt, h1, h2, if_pos hb]

/-! ### `trunc` -/

/-- The loop of `trunc` that grows the file: `write_block(i, s_zeros)` for `k` blocks from `i`,
stopping at the first that fails, whose index it returns. -/
def fillZeros (v : View) (i : Nat) : Nat → View × Option Nat
  | 0 => (v, none)
  | k + 1 =>
    match v.writeBlock i 0 with
    | some v' => v'.fillZeros (i + 1) k
    | none => (v, some i)

/-- `trunc(new_size)`: resize the file to `⌈new_size / block_size⌉` blocks and return the new
`size()`. `old_rs` and `new_rs` are sizes of the file, in blocks of 4096 bytes; `m_count * 4096`
wraps as a `std::uint64_t`, and `new_rs` is used only once `new_size ≤ 2^50`, where it cannot.
Growing writes encrypted zero blocks; shrinking cuts the file with `ftruncate`. -/
def trunc (v : View) (newSize : Nat) : View × Nat :=
  let oldRs := v.count * 4096 % 2 ^ 64
  let newRs := newSize / blockSize * 4096 + if newSize % blockSize ≠ 0 then 4096 else 0
  if oldRs = newRs ∨ 2 ^ 50 < newSize then (v, v.size)
  else if newRs < oldRs then ({ v with count := newRs / 4096 }, newRs / 4096 * blockSize)
  else
    match v.fillZeros (oldRs / 4096) (newRs / 4096 - oldRs / 4096) with
    | (v, some i) => (v, i * blockSize)
    | (v, none) => (v, newRs / 4096 * blockSize)

/-- `⌈s / block_size⌉`, the number of blocks that hold `s` bytes. -/
def blocksFor (s : Nat) : Nat := (s + blockSize - 1) / blockSize

/-- From a block at most one past the end of the file, the zero blocks all go in. -/
theorem fillZeros_of_le {v : View} {i : Nat} (k : Nat) (h : i ≤ v.count) :
    v.fillZeros i k =
      ({ v with count := max v.count (i + k),
                blocks := fun j => if i ≤ j ∧ j < i + k then 0 else v.blocks j }, none) := by
  induction k generalizing v i with
  | zero =>
    rw [fillZeros]
    refine Prod.ext (View.ext (by simp [h]) (funext fun j => ?_) rfl) rfl
    exact (if_neg (by omega)).symm
  | succ k ih =>
    rw [fillZeros, writeBlock_of_le 0 h]
    dsimp only
    rw [ih (by simp)]
    refine Prod.ext (View.ext (by simp; omega) (funext fun j => ?_) rfl) rfl
    simp only [Function.update_apply]
    split_ifs <;> first | rfl | omega

theorem fillZeros_scratch (v : View) (i k : Nat) : (v.fillZeros i k).1.scratch = v.scratch := by
  induction k generalizing v i with
  | zero => rfl
  | succ k ih =>
    rw [fillZeros]
    split
    · next v' hw =>
      rw [ih]
      simp only [writeBlock] at hw
      split at hw <;> cases hw
      rfl
    · rfl

theorem trunc_scratch (v : View) (s : Nat) : (v.trunc s).1.scratch = v.scratch := by
  unfold trunc
  dsimp only
  split_ifs <;> first | rfl | split <;> next heq => rw [← fillZeros_scratch v, heq]

theorem trunc_of_lt {v : View} {s : Nat} (hs : 2 ^ 50 < s) : v.trunc s = (v, v.size) :=
  if_pos (Or.inr hs)

/-- `trunc(s)` when `m_count * 4096` does not wrap: the file has `⌈s / block_size⌉` blocks, the
first ones as they were and any new one zero. -/
theorem trunc_spec {v : View} {s : Nat} (hc : v.count < 2 ^ 52) (hs : s ≤ 2 ^ 50) :
    v.trunc s =
      ({ v with count := blocksFor s,
                blocks := fun j => if v.count ≤ j ∧ j < blocksFor s then 0 else v.blocks j },
       blocksFor s * blockSize) := by
  have hold : v.count * 4096 % 2 ^ 64 = v.count * 4096 := Nat.mod_eq_of_lt (by omega)
  have hnew : s / blockSize * 4096 + (if s % blockSize ≠ 0 then 4096 else 0) =
      blocksFor s * 4096 := by
    simp only [blocksFor, blockSize_eq]; split_ifs <;> omega
  have hdiv (m : Nat) : m * 4096 / 4096 = m := Nat.mul_div_cancel m (by decide)
  simp only [trunc, hold, hnew, hdiv, Nat.not_lt.mpr hs, or_false]
  split_ifs with h1 h2
  · have h1 : v.count = blocksFor s := by omega
    refine Prod.ext (View.ext h1 (funext fun j => (if_neg (by omega)).symm) rfl) ?_
    simp only [size, h1]
    exact Nat.mod_eq_of_lt (by simp only [blocksFor, blockSize_eq] at *; omega)
  · exact Prod.ext (View.ext rfl (funext fun j => (if_neg (by omega)).symm) rfl) rfl
  · rw [fillZeros_of_le _ le_rfl]
    exact Prod.ext (View.ext (by simp; omega)
      (funext fun j => by simp only; congr 1; simp; omega) rfl) rfl

/-- `trunc` cuts the stream at `⌈s / block_size⌉` blocks, with zeros in any block it adds. -/
theorem byteAt_trunc {v : View} {s : Nat} (hc : v.count < 2 ^ 52) (hs : s ≤ 2 ^ 50) (p : Nat) :
    (v.trunc s).1.byteAt p = if p / blockSize < blocksFor s then v.byteAt p else 0 := by
  rw [trunc_spec hc hs]
  unfold byteAt
  dsimp only
  split_ifs <;> first | rfl | omega | simp

/-- When `trunc(s)` returns `s`, a multiple of `block_size` above `size()`, whatever wraps, the file
has at least `s / block_size` blocks. -/
theorem le_count_of_trunc_eq {v : View} {s : Nat} (hs : s % blockSize = 0) (hlt : v.size < s)
    (h : (v.trunc s).2 = s) : s / blockSize ≤ (v.trunc s).1.count := by
  have hnew : s / blockSize * 4096 + (if s % blockSize ≠ 0 then 4096 else 0) =
      s / blockSize * 4096 := by simp [hs]
  have hdiv : s / blockSize * 4096 / 4096 = s / blockSize := Nat.mul_div_cancel _ (by decide)
  have hi : v.count * 4096 % 2 ^ 64 / 4096 ≤ v.count := by
    have := Nat.mod_le (v.count * 4096) (2 ^ 64); omega
  unfold trunc at h ⊢
  simp only [hnew, hdiv] at h ⊢
  split_ifs at h ⊢ with h1 h2
  · omega
  · exact le_rfl
  · rw [fillZeros_of_le _ hi]; dsimp only; omega

/-! ### `write` and `read` -/

/-- The length of the pass of a loop of `read` or `write` at `offset` with `result` of `size`
bytes done: `min(size - result, block_size - offset % block_size)`, to the end of the request or of
the block. -/
def chunk (size result offset : Nat) : Nat :=
  min (size - result) (blockSize - offset % blockSize)

theorem chunk_pos {size result : Nat} (h : result < size) (offset : Nat) :
    0 < chunk size result offset := by
  have := Nat.mod_lt offset (show 0 < blockSize by decide)
  unfold chunk; omega

theorem chunk_le (size result offset : Nat) :
    chunk size result offset ≤ size - result ∧
      chunk size result offset ≤ blockSize - offset % blockSize :=
  ⟨min_le_left _ _, min_le_right _ _⟩

/-- A pass that does not end the request ends its block. -/
theorem chunk_next {size result offset : Nat} (h : result + chunk size result offset < size) :
    offset + chunk size result offset = (offset / blockSize + 1) * blockSize := by
  unfold chunk at h ⊢; rw [blockSize_eq] at *; omega

theorem chunk_last {size result offset : Nat} (hr : result < size)
    (h : ¬result + chunk size result offset < size) : chunk size result offset = size - result := by
  unfold chunk at h ⊢; omega

theorem chunk_end_le {o c count : Nat} (hb : o / blockSize < count)
    (h : c ≤ blockSize - o % blockSize) : o + c ≤ count * blockSize := by
  rw [blockSize_eq] at *; omega

theorem blocksFor_chunk {o c : Nat} (h0 : 0 < c) (h : c ≤ blockSize - o % blockSize) :
    blocksFor (o + c) = o / blockSize + 1 := by
  unfold blocksFor; rw [blockSize_eq] at *; omega

theorem lt_blocksFor {k x : Nat} (h : k * blockSize < x) : k < blocksFor x := by
  unfold blocksFor; rw [blockSize_eq] at *; omega

theorem le_blocksFor_mul (s : Nat) : s ≤ blocksFor s * blockSize := by
  unfold blocksFor; rw [blockSize_eq]; omega

/-- One pass of the loop of `write(offset, buf, size)`, with `fsize` the size of the file before
the loop: the `n` bytes of `buf` from `result` go to `offset`. A block that they fill is written
from `buf`; one they cover in part is read into `m_buf`, or started from zeros at or past `fsize`,
patched and written back. With no `buf`, zeros are written. The error is the view when
`read_block` or `write_block` fails, with `m_buf` as it is then. -/
def writeChunk (v : View) (fsize : Nat) (buf : Option (Nat → UInt8)) (offset result n : Nat) :
    Except View View :=
  let mod := offset % blockSize
  let block := offset / blockSize
  let base : Option Block :=
    if fsize ≤ offset ∧ n < blockSize then some 0
    else if n < blockSize then v.readBlock block
    else some v.scratch
  match base with
  | none => .error v
  | some m =>
    let m := match buf, decide (n < blockSize) with
      | some src, true => m.copy mod n fun j => src (result + j)
      | _, _ => if offset < fsize ∨ n = blockSize then m.copy mod n 0 else m
    let data : Block := match buf, decide (n < blockSize) with
      | some src, false => fun j => src (result + j.val)
      | _, _ => m
    match { v with scratch := m }.writeBlock block data with
    | none => .error { v with scratch := m }
    | some v' => .ok <| match buf, decide (n < blockSize) with
      | some _, false => v'
      | _, _ => { v' with scratch := 0 }

/-- The loop of `write(offset, buf, size)` at `offset`, with `result` bytes written. -/
def writeLoop (v : View) (fsize size : Nat) (buf : Option (Nat → UInt8)) (offset result : Nat) :
    View × Nat :=
  if _h : result < size then
    match v.writeChunk fsize buf offset result (chunk size result offset) with
    | .error v => (v, result)
    | .ok v =>
      v.writeLoop fsize size buf ((offset + chunk size result offset) % 2 ^ 64)
        (result + chunk size result offset)
  else (v, result)
termination_by size - result
decreasing_by have := chunk_pos _h offset; omega

theorem writeLoop_of_ge {v : View} {fsize size : Nat} {buf : Option (Nat → UInt8)} {o r : Nat}
    (h : size ≤ r) : v.writeLoop fsize size buf o r = (v, r) := by
  rw [writeLoop, dif_neg (by omega)]

/-- `write(offset, buf, size)`: a gap of at most 1 GiB between the end of the file and the block of
`offset` is first filled with zero blocks by `trunc`; then the loop writes. Returns the view and
the number of bytes written. -/
def write (v : View) (offset : Nat) (buf : Option (Nat → UInt8)) (size : Nat) : View × Nat :=
  let fneed := offset - offset % blockSize
  if v.size < fneed then
    if 2 ^ 30 < fneed - v.size then (v, 0)
    else
      match v.trunc fneed with
      | (v, r) => if r ≠ fneed then (v, 0) else v.writeLoop fneed size buf offset 0
  else v.writeLoop v.size size buf offset 0

/-- One pass of the loop of `read(offset, buf, size)`: the `n` bytes at `offset` go to `buf` from
`result`. A block that they fill is decrypted into `buf` directly; otherwise it goes through
`m_buf`, which is cleansed after. `none` when `read_block` fails. -/
def readChunk (v : View) (buf : Option (Nat → UInt8)) (offset result n : Nat) :
    Option (View × Option (Nat → UInt8)) :=
  (v.readBlock (offset / blockSize)).map fun b =>
    (match buf, decide (n < blockSize) with
      | some _, false => v
      | _, _ => { v with scratch := 0 },
     buf.map fun out k =>
      if result ≤ k ∧ k < result + n then b.get (offset % blockSize + (k - result)) else out k)

/-- The loop of `read(offset, buf, size)` at `offset`, with `result` bytes read. -/
def readLoop (v : View) (size : Nat) (buf : Option (Nat → UInt8)) (offset result : Nat) :
    View × Nat × Option (Nat → UInt8) :=
  if _h : result < size then
    match v.readChunk buf offset result (chunk size result offset) with
    | none => (v, result, buf)
    | some (v, buf) =>
      v.readLoop size buf ((offset + chunk size result offset) % 2 ^ 64)
        (result + chunk size result offset)
  else (v, result, buf)
termination_by size - result
decreasing_by have := chunk_pos _h offset; omega

/-- `read(offset, buf, size)`: the view, the number of bytes read, and the contents of `buf`. -/
def read (v : View) (offset : Nat) (buf : Option (Nat → UInt8)) (size : Nat) :
    View × Nat × Option (Nat → UInt8) :=
  v.readLoop size buf offset 0

end View

end Todokanai.Sfs
