import Todokanai.Ssdb.Passes

/-!
# A pass of `reload` as a fold over the blocks

The continuation loop of `reload` reads block `i`, the head itself, before any other block, and a
head is never a continuation, so the loop stops at once: it never reads another block and leaves
the scan's index where it was. Each block is therefore read exactly once, by the iteration of its
own index, and a pass is a left fold over the blocks `0, …, count - 1` whose step at block `i`
depends on the disk only through `read_block(i)`.

* `reassemble_of_head`: the continuation loop started at a head, in closed form.
* `scanBlock_snd`: the scan continues from the next block; `scanBlock_congr`: one iteration reads
  only its own block.
* `scanLoop_eq_foldl`: the scan is a fold over the block indices; `reloadPass_eq_foldl`: so is a
  pass of `reload`.

Source: `src/src/util/ssdb.hpp`, `umap::reload` (lines 127–294).
-/

namespace Todokanai.Ssdb

variable {K V : Type}

/-! ### The continuation loop stops at the head -/

/-- Started on a block that is not a continuation, the continuation loop stops at its first test:
if it runs at all it reads that block, frees the run `[block, i]` with error bit 8 and keeps the
block's order; the index, the size left and the bytes gathered stay as they were. -/
theorem reassemble_of_head {d : Disk} {count block : Nat} {o : UInt64} {r : Reassembly}
    {sb : BlockLayout} (fuel : Nat) (hread : d.readBlock r.i = some sb) (hsb : sb.size ≠ u64Max) :
    reassemble d count block o fuel r =
      if 0 < fuel ∧ dataSize < r.size ∧ r.i + 1 < count then
        { r with order := sb.order, error := r.error ||| 8,
                 free := addFree r.free block.toUInt32 (r.i + 1 - block).toUInt32 }
      else r := by
  cases fuel with
  | zero => rfl
  | succ fuel =>
    by_cases h : dataSize < r.size ∧ r.i + 1 < count
    · simp only [reassemble, h, and_self, if_true, hread, ne_eq, hsb, not_false_eq_true,
        or_true, Nat.zero_lt_succ]
    · rw [reassemble_of_not_lt _ h, if_neg (by omega)]

variable [DecidableEq K] (P : Params K V)

/-- The record branch of the scan continues from the head's index. -/
theorem scanRecord_snd {d : Disk} {count : Nat} {st : ScanState K V} {i : Nat}
    {sb : BlockLayout} (hread : d.readBlock i = some sb) (hsb : sb.size ≠ u64Max) :
    (scanRecord P d count st i sb).2 = i := by
  unfold scanRecord; dsimp only
  rw [reassemble_of_head count hread hsb]
  split_ifs <;> rfl

/-- The record branch reads the disk at the head only. -/
theorem scanRecord_congr {d d' : Disk} {count : Nat} {st : ScanState K V} {i : Nat}
    {sb : BlockLayout} (hread : d.readBlock i = some sb) (hread' : d'.readBlock i = some sb)
    (hsb : sb.size ≠ u64Max) : scanRecord P d count st i sb = scanRecord P d' count st i sb := by
  unfold scanRecord; dsimp only
  rw [reassemble_of_head count hread hsb, reassemble_of_head count hread' hsb]

/-- Every iteration of the scan continues from the block after its own. -/
theorem scanBlock_snd (d : Disk) (count : Nat) (st : ScanState K V) (i : Nat) :
    (scanBlock P d count st i).2 = i := by
  unfold scanBlock; dsimp only
  split
  · rfl
  · rename_i sb hread
    split_ifs with h₁ h₂
    all_goals first
      | rfl
      | exact scanRecord_snd P hread (size_ne_max_of_header h₂)

/-- The iteration at block `i` reads the disk at block `i` only. -/
theorem scanBlock_congr {d d' : Disk} (count : Nat) (st : ScanState K V) {i : Nat}
    (h : d.readBlock i = d'.readBlock i) :
    scanBlock P d count st i = scanBlock P d' count st i := by
  unfold scanBlock; dsimp only
  rw [← h]
  split
  · rfl
  · rename_i sb hread
    split_ifs with h₁ h₂
    all_goals first
      | rfl
      | exact scanRecord_congr P hread (h ▸ hread) (size_ne_max_of_header h₂)

/-! ### The scan as a fold -/

/-- One iteration of the scan, at block `i`. -/
def scanStep (d : Disk) (count : Nat) (st : ScanState K V) (i : Nat) : ScanState K V :=
  (scanBlock P d count st i).1

/-- With enough fuel, the scan from block `i` folds its iteration over the blocks `i`, …,
`count - 1`. -/
theorem scanLoop_eq_foldl (d : Disk) (count : Nat) :
    ∀ (fuel : Nat) (st : ScanState K V) (i : Nat), count - i ≤ fuel →
      scanLoop P d count fuel st i = (List.range' i (count - i)).foldl (scanStep P d count) st := by
  intro fuel
  induction fuel with
  | zero => intro st i h; rw [show count - i = 0 by omega]; rfl
  | succ fuel ih =>
    intro st i h
    simp only [scanLoop]
    split
    · rw [scanBlock_snd, ih _ _ (by omega), show count - i = count - (i + 1) + 1 by omega,
        List.range'_succ, List.foldl_cons]
      rfl
    · rw [show count - i = 0 by omega]; rfl

/-- The blocks a pass over `d` scans, with what `read_block` returns for each. -/
def scanned (d : Disk) : List (Nat × Option BlockLayout) :=
  (List.range (d.count % 2 ^ 32)).map fun i => (i, d.readBlock i)

/-- A pass of `reload` is the pass selection after a fold of the scan's iteration over the
blocks. -/
theorem reloadPass_eq_foldl (s : Umap K V) :
    reloadPass P s = selectPass ((List.range (s.data.count % 2 ^ 32)).foldl
      (scanStep P s.data (s.data.count % 2 ^ 32))
      ⟨{ s with map := [], hash := 0, order := 0, lastf := 0xFFFFFFFF,
                free := addFree [] (s.data.count % 2 ^ 32).toUInt32
                  (0 - (s.data.count % 2 ^ 32).toUInt32) }, List.replicate 64 0⟩) := by
  rw [reloadPass, scanLoop_eq_foldl P _ _ _ _ _ (Nat.sub_le _ _), Nat.sub_zero,
    List.range_eq_range']

end Todokanai.Ssdb
