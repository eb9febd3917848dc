import Todokanai.Ssdb.Records

/-!
# Runs across crashes

A container lives through runs of the program. Each run opens it with `init`, performs writer
sessions and flushes, and ends in a crash, after which the file holds the blocks durable at the last
`view::flush` and any subset of the block writes issued since, each whole.

`reload` never writes the file (`reloadPass_data`). In particular a record newer than `m_flush`,
in flight at the crash, is freed in memory only (`scanBlock_in_flight`): its block keeps its
contents until a later write reuses it. Once a later `finalize` has raised `m_flush` past its order,
the next `reload` takes the stale record for a live one. The run of
`reopen_revives_stale_in_flight_record` ends so, with error bit 32 and the stale value.

* `Event`, `runEvents`: an action or a crash and reopen, and a run of them.
* `Disk.crash_keep_all`, `Disk.crash_flush`: a crash that keeps every write, and one right after a
  flush, leave the blocks `read_block` saw.

Source: `src/src/util/ssdb.hpp`, `umap::reload` (lines 127–294) and `umap::init` (444–461);
`sfs::view::flush` in `src/src/util/sfs.cpp`.
-/

namespace Todokanai.Ssdb

/-! ### Crashes -/

namespace Disk

theorem foldl_putBlock_zip (bs : List (Option BlockLayout)) (ws : List (Nat × BlockLayout))
    (n : Nat) :
    (ws.zip (List.range' n ws.length)).foldl (fun bs w => putBlock bs w.1) bs =
      ws.foldl putBlock bs := by
  induction ws generalizing bs n with
  | nil => rfl
  | cons w ws ih => simp [List.range'_succ, ih]

/-- A crash that keeps every unsynced write leaves the blocks as `read_block` saw them. -/
theorem crash_keep_all (d : Disk) : d.crash (fun _ => true) = d.blocks := by
  simp only [crash, List.filter_true, List.range_eq_range', blocks]
  exact foldl_putBlock_zip _ _ 0

/-- A crash right after a flush loses nothing. -/
@[simp] theorem crash_flush (d : Disk) (keep : Nat → Bool) : d.flush.crash keep = d.blocks := rfl

end Disk

/-! ### `reload` reads the file only -/

variable {K V : Type}

@[simp] theorem noteOrder_u_data (st : ScanState K V) (o : UInt64) :
    (st.noteOrder o).u.data = st.u.data := by
  unfold ScanState.noteOrder; split <;> rfl

@[simp] theorem scanTerminator_u_data (st : ScanState K V) (i : Nat) (sb : BlockLayout) :
    (scanTerminator st i sb).u.data = st.u.data := by
  unfold scanTerminator; dsimp only; split_ifs <;> rfl

@[simp] theorem selectPass_data (st : ScanState K V) : (selectPass st).1.data = st.u.data := by
  unfold selectPass; dsimp only; split_ifs <;> rfl

variable [DecidableEq K] (P : Params K V)

@[simp] theorem acceptRecord_data (u : Umap K V) (k : K) (v : V) (o sorder : UInt64)
    (block n : Nat) : (acceptRecord P u k v o sorder block n).data = u.data := by
  unfold acceptRecord; split
  · rfl
  · split <;> rfl

@[simp] theorem scanRecord_u_data (d : Disk) (count : Nat) (st : ScanState K V) (i : Nat)
    (sb : BlockLayout) : (scanRecord P d count st i sb).1.u.data = st.u.data := by
  simp only [scanRecord]; split <;> simp

@[simp] theorem scanBlock_u_data (d : Disk) (count : Nat) (st : ScanState K V) (i : Nat) :
    (scanBlock P d count st i).1.u.data = st.u.data := by
  unfold scanBlock; dsimp only; split
  · rfl
  · split_ifs <;> simp

theorem scanLoop_u_data (d : Disk) (count fuel : Nat) (st : ScanState K V) (i : Nat) :
    (scanLoop P d count fuel st i).u.data = st.u.data := by
  induction fuel generalizing st i with
  | zero => rfl
  | succ fuel ih =>
    simp only [scanLoop]
    split
    · rw [ih, scanBlock_u_data]
    · rfl

theorem reloadPass_data (s : Umap K V) : (reloadPass P s).1.data = s.data := by
  simp only [reloadPass, selectPass_data, scanLoop_u_data]


/-- A block newer than `m_flush` is freed with error bit 4, in memory only: the map and the hash
are kept, and the block is left as it is. -/
theorem scanBlock_in_flight {d : Disk} {count i : Nat} {st : ScanState K V} {sb : BlockLayout}
    (hread : d.readBlock i = some sb) (ho : 1 ≤ sb.order.toNat ∧ sb.order.toNat < 2 ^ 63)
    (hs : sb.size.toNat < 2 ^ 31) (hfl : st.u.flush < sb.order) :
    scanBlock P d count st i =
      ({ st.noteOrder sb.order with
          u := { (st.noteOrder sb.order).u with
                 error := (st.noteOrder sb.order).u.error ||| 4,
                 free := addFree (st.noteOrder sb.order).u.free i.toUInt32 1 } }, i) := by
  have hfl' : (st.noteOrder sb.order).u.flush < sb.order := by rwa [noteOrder_u_flush]
  simp only [scanBlock, hread, not_reserved_order ho, not_reserved_size hs, if_false, hfl', if_true]

/-! ### Runs -/

/-- What happens to a container once it is open. -/
inductive Event (K V : Type)
  /-- A writer session or a flush. -/
  | act (a : Action K V)
  /-- The program stops: the file keeps its durable blocks and the unsynced writes `keep` selects,
  and the next run opens it with `init`, on a view with the remaining write outcomes. -/
  | crash (keep : Nat → Bool)

/-- The events `es` from the open map `s`, iterating `m_map` in the order `it`; `none` where an
allocation throws. -/
def runEvents (it : Umap K V → List K) : List (Event K V) → Umap K V → Option (Umap K V)
  | [], s => some s
  | .act a :: es, s => (a.run P it s).bind (runEvents it es)
  | .crash keep :: es, s => (reopen P (s.data.crash keep) s.data.failures).bind (runEvents it es)

/-- Three writes of one block each that no flush covers, a crash that keeps them all, a flush of a
new key, and a second crash that keeps everything. The first `init` rolls the three writes back and
frees their blocks; the flush reuses two of them and leaves the third, the write of `0 ↦ 2`, on
disk. Its order is below the new `m_flush`, so the second `init` takes it for live: the map it
recovers maps `0` to `2`, where the map of the surviving terminator maps `0` to `1`, and its hash
disagrees with that terminator, so it salvages with error bit 32. -/
theorem reopen_revives_stale_in_flight_record :
    ((reopen byteParams [] []).bind (runEvents byteParams insertionOrder
        [.act (.flushWith [.add true 0 1]), .act (.write [.add true 1 1]),
          .act (.write [.add true 2 1]), .act (.write [.index 0 2]), .crash fun _ => true,
          .act (.flushWith [.add true 3 1])])).map
        (fun s => ((findEntry 0 s.map).map Prod.snd, s.flush == s.order)) = some (some 1, true) ∧
      ((reopen byteParams [] []).bind (runEvents byteParams insertionOrder
        [.act (.flushWith [.add true 0 1]), .act (.write [.add true 1 1]),
          .act (.write [.add true 2 1]), .act (.write [.index 0 2]), .crash fun _ => true,
          .act (.flushWith [.add true 3 1]), .crash fun _ => true])).map
        (fun s => ((findEntry 0 s.map).map Prod.snd, s.error &&& 32)) = some (some 2, 32) := by
  constructor <;> decide

end Todokanai.Ssdb
