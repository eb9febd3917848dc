import Todokanai.Ssdb.Reload

/-!
# Record runs: what `write` lays out and what `reload` reads back

`umap::write` stores a record `B` of `n = ⌈|B| / 4032⌉` blocks: the head carries the order and
`|B|`, the continuations the order and `2^64 - 1`, and the data fields the consecutive slices of
`B`. `reload` reads a head, copies its first field, and lets its continuation loop append the
others.

The loop does not read them. It runs only while more than one field is still missing, so for a
record of two fields it does not run at all, and when it runs its first read is of block `i`, the
head itself, whose size is not `2^64 - 1`. Either way bytes remain missing and the scan sets error
bit 16 and drops the record (`scanBlock_drops_multiblock_record`). That path also frees nothing: the
head of a dropped record of two fields is neither free nor owned afterwards
(`init_leaks_truncated_head`). Records of one field do round-trip (`scanBlock_single_record`).

Source: `src/src/util/ssdb.hpp`, `umap::write` (lines 307–374) and the record branch of
`umap::reload` (lines 187–264).
-/

namespace Todokanai.Ssdb

variable {K V : Type}

/-! ### The blocks of a run -/

@[simp] theorem recordBlock_order (o : UInt64) (buf : List UInt8) (i : Nat) :
    (recordBlock o buf i).order = o := rfl

@[simp] theorem recordBlock_size_head (o : UInt64) (buf : List UInt8) :
    (recordBlock o buf 0).size = buf.length.toUInt64 := rfl

/-- The head of a record of one data field holds all of it. -/
theorem recordBlock_dataPrefix_head (o : UInt64) {buf : List UInt8} (h : buf.length ≤ dataSize) :
    (recordBlock o buf 0).dataPrefix buf.length = buf := by
  simp [BlockLayout.dataPrefix, recordBlock, List.take_of_length_le h]

/-! ### Header checks of the scan -/

theorem not_reserved_order {o : UInt64} (h : 1 ≤ o.toNat ∧ o.toNat < 2 ^ 63) :
    ¬ (0x7FFFFFFFFFFFFFFF : UInt64) ≤ o - 1 := by
  rw [UInt64.le_iff_toNat_le, UInt64.toNat_sub_of_le' (by simpa using h.1)]
  simp only [UInt64.toNat_ofNat, UInt64.size]
  omega

theorem not_reserved_size {sz : UInt64} (h : sz.toNat < 2 ^ 31) : ¬ (0x80000000 : UInt64) ≤ sz := by
  rw [UInt64.le_iff_toNat_le]
  simp only [UInt64.toNat_ofNat, UInt64.size]
  omega

@[simp] theorem noteOrder_u_map (st : ScanState K V) (o : UInt64) :
    (st.noteOrder o).u.map = st.u.map := by
  unfold ScanState.noteOrder; split <;> rfl

@[simp] theorem noteOrder_u_hash (st : ScanState K V) (o : UInt64) :
    (st.noteOrder o).u.hash = st.u.hash := by
  unfold ScanState.noteOrder; split <;> rfl

@[simp] theorem noteOrder_u_flush (st : ScanState K V) (o : UInt64) :
    (st.noteOrder o).u.flush = st.u.flush := by
  unfold ScanState.noteOrder; split <;> rfl

variable [DecidableEq K] (P : Params K V)

/-- A head whose header passes the checks and which is not in flight goes to the record
branch. -/
theorem scanBlock_of_head {d : Disk} {count i : Nat} {st : ScanState K V} {sb : BlockLayout}
    (hread : d.readBlock i = some sb) (ho : 1 ≤ sb.order.toNat ∧ sb.order.toNat < 2 ^ 63)
    (hs : sb.size.toNat < 2 ^ 31) (hs0 : sb.size ≠ 0) (hfl : sb.order ≤ st.u.flush) :
    scanBlock P d count st i = scanRecord P d count (st.noteOrder sb.order) i sb := by
  have hfl' : ¬ (st.noteOrder sb.order).u.flush < sb.order := by
    rw [noteOrder_u_flush, UInt64.lt_iff_toNat_lt]
    rw [UInt64.le_iff_toNat_le] at hfl
    omega
  simp only [scanBlock, hread, not_reserved_order ho, not_reserved_size hs, if_false, hfl', hs0]

/-! ### The continuation loop -/

theorem reassemble_of_not_lt {d : Disk} {count block : Nat} {o : UInt64} {r : Reassembly}
    (fuel : Nat) (h : ¬ (dataSize < r.size ∧ r.i + 1 < count)) :
    reassemble d count block o fuel r = r := by
  cases fuel <;> simp [reassemble, h]

/-- When the block at the loop's index is not a continuation, the loop stops there with nothing
appended. -/
theorem reassemble_size_of_not_continuation {d : Disk} {count block : Nat} {o : UInt64}
    {r : Reassembly} {sb : BlockLayout} (fuel : Nat) (hread : d.readBlock r.i = some sb)
    (hsb : sb.size ≠ u64Max) : (reassemble d count block o fuel r).size = r.size := by
  cases fuel with
  | zero => rfl
  | succ fuel =>
    by_cases h : dataSize < r.size ∧ r.i + 1 < count
    · simp [reassemble, h, hread, hsb]
    · rw [reassemble_of_not_lt _ h]

/-- The loop's first read is of block `i`, the head itself: it leaves in `sbuf` the order of the
head, which the scan adds to the hash. -/
theorem reassemble_order {d : Disk} {count block : Nat} {o : UInt64} {r : Reassembly}
    {sb : BlockLayout} (fuel : Nat) (hread : d.readBlock r.i = some sb) (hsb : sb.size ≠ u64Max)
    (hr : r.order = sb.order) : (reassemble d count block o fuel r).order = sb.order := by
  cases fuel with
  | zero => exact hr
  | succ fuel =>
    by_cases h : dataSize < r.size ∧ r.i + 1 < count
    · simp [reassemble, h, hread, hsb]
    · rw [reassemble_of_not_lt _ h]; exact hr

/-! ### Records of one block and of more -/

/-- A record of one data field is read back whole: the scan reaching its head decodes exactly `B`
and offers it, with its one-block run, to the map. -/
theorem scanBlock_single_record {d : Disk} {count : Nat} {st : ScanState K V} {b : Nat}
    {o : UInt64} {B : List UInt8} (ho : 1 ≤ o.toNat ∧ o.toNat < 2 ^ 63)
    (hB : 0 < B.length ∧ B.length ≤ dataSize) (hfl : o ≤ st.u.flush)
    (hread : d.readBlock b = some (recordBlock o B 0)) :
    scanBlock P d count st b =
      ({ st.noteOrder o with
          u := acceptRecord P (st.noteOrder o).u (P.load B).1 (P.load B).2 o o b 1 }, b) := by
  have hlen : B.length < 2 ^ 64 := by simp only [dataSize] at hB; omega
  have hsz : (recordBlock o B 0).size.toNat = B.length := by simp; omega
  rw [scanBlock_of_head P hread (by simpa using ho) (by simp only [dataSize] at hB; omega)
    (fun h => by rw [h] at hsz; simp at hsz; omega) (by simpa using hfl)]
  have hmin : min B.length dataSize = B.length := Nat.min_eq_left hB.2
  simp only [scanRecord, hsz, hmin, Nat.sub_self, recordBlock_order]
  rw [reassemble_of_not_lt _ (by simp)]
  simp only [recordBlock_dataPrefix_head o hB.2, ne_eq, not_true_eq_false, if_false,
    Nat.add_sub_cancel_left]

/-- A record longer than one data field is never read back: whatever the blocks after its head,
the scan reaching the head sets error bit 16 and leaves the map and the hash as they were. -/
theorem scanBlock_drops_multiblock_record (d : Disk) (count : Nat) (st : ScanState K V) (b : Nat)
    (o : UInt64) (B : List UInt8) (ho : 1 ≤ o.toNat ∧ o.toNat < 2 ^ 63)
    (hB : dataSize < B.length ∧ B.length < 2 ^ 31) (hfl : o ≤ st.u.flush)
    (hread : d.readBlock b = some (recordBlock o B 0)) :
    (scanBlock P d count st b).1.u.error &&& 16 = 16 ∧
      (scanBlock P d count st b).1.u.map = st.u.map ∧
      (scanBlock P d count st b).1.u.hash = st.u.hash := by
  have hsz : (recordBlock o B 0).size.toNat = B.length := by simp; omega
  rw [scanBlock_of_head P hread (by simpa using ho) (by omega)
    (fun h => by rw [h] at hsz; simp at hsz; omega) (by simpa using hfl)]
  have hmin : min B.length dataSize = dataSize := Nat.min_eq_right hB.1.le
  have hrest : (reassemble d count b o count
      { i := b, size := B.length - dataSize, buf := (recordBlock o B 0).dataPrefix dataSize,
        order := o, free := (st.noteOrder o).u.free,
        error := (st.noteOrder o).u.error }).size = B.length - dataSize :=
    reassemble_size_of_not_continuation count hread
      (fun h => by rw [h] at hsz; simp [u64Max] at hsz; omega)
  simp only [scanRecord, hsz, hmin, recordBlock_order, hrest]
  simp only [dataSize] at hB hrest ⊢
  rw [if_pos (by omega)]
  exact ⟨UInt32.or_and_self _ _, by simp, by simp⟩

/-- A record of 4033 zero bytes, written at blocks `0` and `1` as `umap::write` lays it out and
scanned by the first pass, is dropped. -/
theorem scanBlock_drops_two_block_record :
    (scanBlock byteParams (Disk.ofFile [some (recordBlock 1 (List.replicate 4033 0) 0),
        some (recordBlock 1 (List.replicate 4033 0) 1)] []) 2
        ⟨{ Umap.fresh (Disk.ofFile [] []) with flush := u64Max }, []⟩ 0).1.u.error &&& 16 = 16 ∧
    (scanBlock byteParams (Disk.ofFile [some (recordBlock 1 (List.replicate 4033 0) 0),
        some (recordBlock 1 (List.replicate 4033 0) 1)] []) 2
        ⟨{ Umap.fresh (Disk.ofFile [] []) with flush := u64Max }, []⟩ 0).1.u.map = [] :=
  have h := scanBlock_drops_multiblock_record byteParams
    (Disk.ofFile [some (recordBlock 1 (List.replicate 4033 0) 0),
      some (recordBlock 1 (List.replicate 4033 0) 1)] []) 2
    ⟨{ Umap.fresh (Disk.ofFile [] []) with flush := u64Max }, []⟩ 0 1 (List.replicate 4033 0)
    (by decide) (by rw [List.length_replicate]; decide) (by decide) rfl
  ⟨h.1, h.2.1⟩


/-! ### Ownership of blocks -/

/-- Block `p` lies in the run of `count` blocks from `start`. -/
def inRun (start count : UInt32) (p : Nat) : Bool :=
  start.toNat ≤ p && p < start.toNat + count.toNat

/-- The owners of block `p`: the free space, the loaded and the new run of every entry, and the live
terminator. -/
def ownerCount (s : Umap K V) (p : Nat) : Nat :=
  (if IsFree s.free p then 1 else 0) +
    s.map.countP (fun e => inRun e.2.1.loadBlock e.2.1.loadCount p) +
    s.map.countP (fun e => inRun e.2.1.newBlock e.2.1.newCount p) +
    (if p = s.lastf.toNat then 1 else 0)

/-- Every block below `2^32 - 1` has exactly one owner, and every block that is not free lies in
the file. -/
def BlocksPartitioned (s : Umap K V) : Prop :=
  ∀ p < 2 ^ 32 - 1, ownerCount s p = 1 ∧ (¬ IsFree s.free p → p < s.data.count)

/-- The head of a record of 4033 bytes, as the only block of a file. -/
def truncatedHead : BlockLayout :=
  ⟨1, 4033, [], Nat.zero_le _⟩

/-- Opening a file whose only block is a head of two data fields leaks that block: it is not free,
not in a run and not the terminator. -/
theorem init_leaks_truncated_head :
    ∃ s, reopen byteParams [some truncatedHead] [] = some s ∧ ownerCount s 0 = 0 ∧
      ¬ BlocksPartitioned s := by
  have h : (reopen byteParams [some truncatedHead] []).map (ownerCount · 0) = some 0 := by decide
  obtain ⟨s, hs, h0⟩ := Option.map_eq_some'.mp h
  exact ⟨s, hs, h0, fun hp => absurd (hp 0 (by norm_num)).1 (by omega)⟩

end Todokanai.Ssdb
