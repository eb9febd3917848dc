import Todokanai.Ssdb.Umap

/-!
# Recovery: `umap::reload` and `umap::init`

`reload` rebuilds the map from the blocks of the container. It scans every block: one that does not
decrypt, has an order outside `[1, 2^63)` or a size of `2^31` or more is freed (a continuation is
freed silently, anything else sets an error bit); a block newer than `m_flush` is freed as in
flight; a terminator is kept when it is the newest seen (first pass) or has the order `m_flush`
(later passes); a head block starts a record, whose continuation blocks the inner loop appends, and
the record's key is decoded and kept when its order is the largest seen for that key.

The pass is selected by `m_flush`: `2^64 - 1` is the optimistic first pass, after which `m_flush`
becomes the newest terminator's order and the scan is repeated, rolling back, if the hash does not
match that terminator; `2^64 - 2` is the salvage pass, which accepts its result with error bit 32;
any other value is the rollback pass, which falls back to salvage on a mismatch. `init` runs
`reload` from the first pass and writes a terminator when none was kept.

The inner loop is modelled as written: it runs while more than one data field of the record remains
and `j < count`, and it reads block `i`, the block before `j`.

* `reassemble`: the continuation loop; `scanBlock`: the body of the scan for one block;
  `scanLoop`: the scan.
* `selectPass`: the pass selection; `reloadPass`: one call of `reload` up to its recursive call;
  `reload`: the calls, at most `fuel`.
* `Umap.fresh`, `init`: a newly constructed map and `umap::init` on a view.

Source: `src/src/util/ssdb.hpp`, `umap::reload` (lines 127–294) and `umap::init` (444–461).
-/

namespace Todokanai.Ssdb

variable {K V : Type} [DecidableEq K] (P : Params K V)

/-- `UINT64_MAX`, the value `-1` of the source's `uint64` comparisons. -/
def u64Max : UInt64 := 0xFFFFFFFFFFFFFFFF

/-- The value `-2` of the source's `uint64` comparisons, which selects the salvage pass. -/
def u64Minus2 : UInt64 := 0xFFFFFFFFFFFFFFFE

/-- The variables of the continuation loop: the index `i`, what remains of the record's size, the
bytes gathered, the order of the last block read into `sbuf`, and the members it changes. -/
structure Reassembly where
  i : Nat
  size : Nat
  buf : List UInt8
  order : UInt64
  free : FreeMap
  error : UInt32

/-- The continuation loop for the record whose head is at `block` with order `o`: while more than
`dataSize` bytes remain and `i + 1 < count`, read block `i` and append its data when it continues
the record, else free the run `[block, i]` with error bit 8 and stop. -/
def reassemble (d : Disk) (count block : Nat) (o : UInt64) : Nat → Reassembly → Reassembly
  | 0, r => r
  | fuel + 1, r =>
    if dataSize < r.size ∧ r.i + 1 < count then
      let fail (r : Reassembly) : Reassembly :=
        { r with error := r.error ||| 8,
                 free := addFree r.free block.toUInt32 (r.i + 1 - block).toUInt32 }
      match d.readBlock r.i with
      | some sb =>
        if sb.order ≠ o ∨ sb.size ≠ u64Max then fail { r with order := sb.order }
        else reassemble d count block o fuel
          { r with i := r.i + 1, size := r.size - min r.size dataSize, order := sb.order,
                   buf := r.buf ++ sb.dataPrefix (min r.size dataSize) }
      | none => fail r
    else r

/-- The variables of the scan: the map's members and `last_hash`. -/
structure ScanState (K V : Type) where
  u : Umap K V
  lastHash : List UInt8

/-- The control of a record of order `o` loaded from the run `[block, block + n)`. -/
def Control.loaded (c : Control) (o : UInt64) (block n : Nat) : Control :=
  { c with order := o, loadBlock := block.toUInt32, loadCount := n.toUInt32 }

/-- A decoded record `(k, v)` of order `o` with its run `[block, block + n)`: kept when it is newer
than the entry of `k`, replacing that entry's run and pair, and freed otherwise. `sorder` is the
order in `sbuf`, which the source adds to the hash. -/
def acceptRecord (u : Umap K V) (k : K) (v : V) (o sorder : UInt64) (block n : Nat) : Umap K V :=
  match findEntry k u.map with
  | none =>
    { u with map := u.map ++ [(k, nullControl.loaded o block n, v)],
             hash := xorOrder P u.hash sorder block.toUInt64 }
  | some (c, _) =>
    if c.order < o then
      let hash := if c.order ≠ 0 then xorOrder P u.hash c.order c.loadBlock.toUInt64 else u.hash
      let free := if c.order ≠ 0 then addFree u.free c.loadBlock c.loadCount else u.free
      { u with map := setEntry k (c.loaded o block n) v u.map, free,
               hash := xorOrder P hash sorder block.toUInt64 }
    else { u with free := addFree u.free block.toUInt32 n.toUInt32 }

/-- The terminator branch of the scan for the terminator `sb` at block `i`: keep it when it is the
newest seen in the first pass or has the order `m_flush`, else free it. -/
def scanTerminator (st : ScanState K V) (i : Nat) (sb : BlockLayout) : ScanState K V :=
  let u := st.u
  if u.flush = u64Max ∧ u.order < sb.order then
    { u := { u with free := addFree u.free u.lastf 1, order := sb.order, lastf := i.toUInt32 },
      lastHash := sb.dataPrefix 64 }
  else if u.flush = sb.order then
    { u := { u with lastf := i.toUInt32 }, lastHash := sb.dataPrefix 64 }
  else { st with u := { u with free := addFree u.free i.toUInt32 1 } }

/-- The record branch of the scan for the head `sb` at block `i`: reassemble the record, then
decode and offer it to the map, or set error bit 16 when bytes are missing. Returns the state and
the index the loop continues from. -/
def scanRecord (d : Disk) (count : Nat) (st : ScanState K V) (i : Nat) (sb : BlockLayout) :
    ScanState K V × Nat :=
  let size := sb.size.toNat
  let r := reassemble d count i sb.order count
    { i, size := size - min size dataSize, buf := sb.dataPrefix (min size dataSize),
      order := sb.order, free := st.u.free, error := st.u.error }
  let u := { st.u with free := r.free, error := r.error }
  if r.size ≠ 0 then ({ st with u := { u with error := u.error ||| 16 } }, r.i)
  else
    let kv := P.load r.buf
    ({ st with u := acceptRecord P u kv.1 kv.2 sb.order r.order i (r.i + 1 - i) }, r.i)

/-- "Remember max order": outside the first pass the scan keeps the largest order it has seen. -/
def ScanState.noteOrder (st : ScanState K V) (o : UInt64) : ScanState K V :=
  if st.u.flush ≠ u64Max ∧ st.u.order < o then { st with u := { st.u with order := o } } else st

/-- The body of the scan for block `i`; returns the state and the index the loop continues from
(before its `i++`). -/
def scanBlock (d : Disk) (count : Nat) (st : ScanState K V) (i : Nat) : ScanState K V × Nat :=
  let skip (st : ScanState K V) (err : UInt32) : ScanState K V × Nat :=
    ({ st with u := { st.u with error := st.u.error ||| err,
                                free := addFree st.u.free i.toUInt32 1 } }, i)
  match d.readBlock i with
  | none => skip st 1
  | some sb =>
    if 0x7FFFFFFFFFFFFFFF ≤ sb.order - 1 then skip st 2
    else if 0x80000000 ≤ sb.size then skip st (if sb.size ≠ u64Max then 2 else 0)
    else
      let st := st.noteOrder sb.order
      if st.u.flush < sb.order then skip st 4
      else if sb.size = 0 then (scanTerminator st i sb, i)
      else scanRecord P d count st i sb

/-- The scan `for (i = 0; i < count; i++)`, from block `i`, with `fuel` iterations at most. -/
def scanLoop (d : Disk) (count : Nat) : Nat → ScanState K V → Nat → ScanState K V
  | 0, st, _ => st
  | fuel + 1, st, i =>
    if i < count then
      let r := scanBlock P d count st i
      scanLoop d count fuel r.1 (r.2 + 1)
    else st

/-- The end of `reload`: compare the hash with the kept terminator's and select what follows from
`m_flush`. Returns the state and whether `reload` calls itself again. -/
def selectPass (st : ScanState K V) : Umap K V × Bool :=
  let u := st.u
  let agree := u.hash.bytes = st.lastHash
  if u.flush = u64Max then ({ u with flush := u.order }, ¬ agree)
  else if u.flush = u64Minus2 then ({ u with flush := 0, error := u.error ||| 32 }, false)
  else if ¬ agree then ({ u with flush := u64Minus2 }, true)
  else ({ u with flush := u.order }, false)

/-- One call of `reload` up to its recursive call: reset, scan every block, and select the pass. -/
def reloadPass (s : Umap K V) : Umap K V × Bool :=
  let count := s.data.count % 2 ^ 32
  let u : Umap K V := { s with map := [], hash := 0, order := 0, lastf := 0xFFFFFFFF,
                               free := addFree [] count.toUInt32 (0 - count.toUInt32) }
  selectPass (scanLoop P s.data count count ⟨u, List.replicate 64 0⟩ 0)

/-- `umap::reload`, with at most `fuel` calls; `none` when they do not suffice. -/
def reload : Nat → Umap K V → Option (Umap K V)
  | 0, _ => none
  | fuel + 1, s =>
    let r := reloadPass P s
    if r.2 then reload fuel r.1 else some r.1

/-- A `umap` just constructed, on the view `d`: an empty map and zero error and hash. -/
def Umap.fresh (d : Disk) : Umap K V :=
  ⟨[], [], 0, 0xFFFFFFFF, 0, 0, 0, d⟩

/-- `umap::init(view)`: recover from the first pass, then write a terminator if none was kept.
The three calls of `reload` are the most the source makes. `finalize` iterates the map in the order
of its list: after `reload` every entry is loaded with no new run, so no other order changes what
it does. -/
def init (s : Umap K V) : Option (Umap K V) :=
  (reload P 3 { s with flush := u64Max }).bind fun u =>
    if u.lastf = 0xFFFFFFFF then finalize P (insertionOrder u) u else some u

/-- Open a container: a fresh map on the file, recovered by `init`. -/
def reopen (file : List (Option BlockLayout)) (failures : List Bool) : Option (Umap K V) :=
  init P (Umap.fresh (Disk.ofFile file failures))

end Todokanai.Ssdb
