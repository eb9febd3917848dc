import Todokanai.Ssdb.FreeSpace
import Todokanai.Ssdb.Layout

/-!
# The state of `ssdb::umap` and its writing operations

A `umap<K, T>` keeps an in-memory `std::unordered_map` from keys to a control and a value, the free
space of its container, the order of the last update and of the last flush, the block of the live
terminator and the combined hash of the orders in use. Mutation goes through writer sessions:
`writer[k]` and `writer.add(k, ...)` mark an entry dirty (its contribution leaves the hash and its
order becomes `0`), and the writer's destructor writes every dirty entry as a fresh run of blocks
with a new order. `finalize` writes what is still dirty, then a terminator block carrying the hash,
and on success frees the previous terminator and the runs replaced since the last flush.

* `Params`: what the map is instantiated with, the `sstl` codec of a key and value and the salted
  HMAC of the combined hash.
* `Umap`: the members of `umap`; `xorOrder`, `dirty`: `umap::xor_order` and `umap::dirty`.
* `writeEntry`: `umap::write(item)`, with its reallocation `reserve`, its block loop `writeRun`
  and its failure path.
* `writeDirty`, `writeTerminator`, `promote`, `finalize`: `umap::finalize` and the loop of the
  writer's destructor.
* `WriterOp`, `session`, `Action`: the writer's operations, a `write(f)` or `flush(f)` session, and
  the standalone `flush()`.
* `IterOrder`: an iteration order of `m_map`, any permutation of its keys in every state.

A `std::bad_alloc` from `get_free` leaves the writer's destructor, where it ends the program; it is
`none` here. The library chooses the iteration order of the `unordered_map`, so every loop over
`m_map` takes its keys in an order given as an argument, one order for both loops of a `finalize`,
which inserts nothing in between.

Source: `src/src/util/ssdb.hpp`, `umap` (lines 95–646): `xor_order` (121–125), `dirty`
(296–305), `write` (307–374), `finalize` (376–428), `writer` (542–622) and the sessions (624–645).
-/

namespace Todokanai.Ssdb

/-- What a `umap<K, T>` is instantiated with. -/
structure Params (K V : Type) where
  /-- `sstl::save` of a key and then its value, as `umap::write` calls it. -/
  save : K → V → List UInt8
  /-- `sstl` reading a key and then a value from a record, as `umap::reload` does. -/
  load : List UInt8 → K × V
  /-- `HMAC(salt, be64(order) ‖ be64(pos))` of the combined hash. -/
  hmac : UInt64 → UInt64 → Digest

/-- An instance for runs on concrete inputs: one-byte keys and values stored as themselves, so that
`load` inverts `save`, and an HMAC that sets bit `16 · order + pos` (mod 512) of the digest, so
that the pairs of small orders and positions have independent digests. -/
def byteParams : Params UInt8 UInt8 where
  save k v := [k, v]
  load b := (b.headD 0, b.tail.headD 0)
  hmac o p := ⟨2 ^ ((16 * o.toNat + p.toNat) % 512), by
    apply Nat.pow_lt_pow_right Nat.one_lt_two; exact Nat.mod_lt _ (by decide)⟩

/-- The members of `ssdb::umap<K, T>`. -/
structure Umap (K V : Type) where
  /-- `m_map`, its entries in the order they were inserted. -/
  map : List (K × Control × V)
  /-- `m_free`. -/
  free : FreeMap
  /-- `m_error`. -/
  error : UInt32
  /-- `m_lastf`, the block of the live terminator; `2^32 - 1` when there is none. -/
  lastf : UInt32
  /-- `m_order`, the order of the last update. -/
  order : UInt64
  /-- `m_flush`, the order of the last flush; a flush is due when `m_order > m_flush`. -/
  flush : UInt64
  /-- `m_hash`. -/
  hash : Digest
  /-- `m_data`. -/
  data : Disk
  deriving DecidableEq

variable {K V : Type} [DecidableEq K]

/-! ### Entries of `m_map` -/

/-- `m_map.find(k)`. -/
def findEntry (k : K) (m : List (K × Control × V)) : Option (Control × V) :=
  (m.find? fun e => e.1 = k).map Prod.snd

/-- Overwrite the control and value of the entry of `k`. -/
def setEntry (k : K) (c : Control) (v : V) (m : List (K × Control × V)) : List (K × Control × V) :=
  m.map fun e => if e.1 = k then (k, c, v) else e

variable (P : Params K V)

/-- `umap::xor_order(order, pos)`. -/
def xorOrder (h : Digest) (order pos : UInt64) : Digest :=
  h ^^^ P.hmac order pos

/-- `umap::dirty(item)`: take the entry's pair out of the hash and clear its order. -/
def dirty (h : Digest) (c : Control) : Digest × Control :=
  if c.order ≠ 0 then (xorOrder P h c.order c.head.toUInt64, { c with order := 0 }) else (h, c)

/-! ### `umap::write(item)` -/

/-- The number of blocks of a record of `n` bytes, as `umap::write` computes it in `uint32`. -/
def blockCount (n : Nat) : UInt32 :=
  (n / dataSize).toUInt32 + if n % dataSize ≠ 0 then 1 else 0

/-- Block `i` of the run of record `buf` with order `o`: the head carries the size, the others
`2^64 - 1`, and each the `i`-th slice of `buf`, zero-padded. -/
def recordBlock (o : UInt64) (buf : List UInt8) (i : Nat) : BlockLayout where
  order := o
  size := if i = 0 then buf.length.toUInt64 else 0xFFFFFFFFFFFFFFFF
  data := (buf.drop (i * dataSize)).take dataSize
  data_le := List.length_take_le _ _

/-- The block loop of `umap::write`, over the positions `is` of the run at `start`: stops at the
first `write_block` that fails and says whether all succeeded. -/
def writeRun (start : UInt32) (o : UInt64) (buf : List UInt8) : List Nat → Disk → Bool × Disk
  | [], d => (true, d)
  | i :: is, d =>
    let w := d.writeBlock (start + i.toUInt32).toNat (recordBlock o buf i)
    if w.1 then writeRun start o buf is w.2 else (false, w.2)

/-- "Update blocks" in `umap::write`: when the new run of `c` is not `count` blocks long, free it
and take a run of `count` blocks from `get_free`. -/
def reserve (free : FreeMap) (c : Control) (count : UInt32) : Option (FreeMap × Control) :=
  if c.newCount ≠ count then
    (getFree (addFree free c.newBlock c.newCount) count).map fun r =>
      (r.2, { c with newBlock := r.1, newCount := count })
  else some (free, c)

/-- `umap::write(item)` for the entry of `k` with control `c` and value `v`: encode, take a new
order, reallocate the new run when its length changes, add the pair to the hash and write the
blocks. When a block write fails the run is freed, the pair leaves the hash again, the order is
cleared and `m_order` given back, with error bit 64. -/
def writeEntry (s : Umap K V) (k : K) (c : Control) (v : V) : Option (Umap K V) :=
  let buf := P.save k v
  let count := blockCount buf.length
  let d := dirty P s.hash c
  let order := s.order + 1
  (reserve s.free { d.2 with order := order } count).map fun (free, c) =>
    let hash := xorOrder P d.1 c.order c.newBlock.toUInt64
    let w := writeRun c.newBlock c.order buf (List.range count.toNat) s.data
    if w.1 then { s with map := setEntry k c v s.map, free, hash, order, data := w.2 }
    else
      { s with
        map := setEntry k { c with newBlock := 0, newCount := 0, order := 0 } v s.map
        free := addFree free c.newBlock c.newCount
        hash := xorOrder P hash c.order c.newBlock.toUInt64
        error := s.error ||| 64
        order := order - 1
        data := w.2 }

/-! ### `umap::finalize` -/

/-- Write every entry among `ks` whose order is `0`, in turn: the loop of the writer's destructor
and the first loop of `finalize`. -/
def writeDirty : List K → Umap K V → Option (Umap K V)
  | [], s => some s
  | k :: ks, s =>
    match findEntry k s.map with
    | some (c, v) =>
      if c.order = 0 then (writeEntry P s k c v).bind (writeDirty ks) else writeDirty ks s
    | none => writeDirty ks s

/-- A control after a successful flush: its new run, if any, becomes its loaded run. -/
def Control.promote (c : Control) : Control :=
  { c with loadBlock := c.newBlock, loadCount := c.newCount, newBlock := 0, newCount := 0 }

/-- The entries of `m` in the order of the keys `ks`. -/
def entriesIn (ks : List K) (m : List (K × Control × V)) : List (K × Control × V) :=
  ks.filterMap fun k => (findEntry k m).map fun cv => (k, cv)

/-- The frees of the last loop of `finalize`, over the entries `l` in iteration order: each entry
with a new run frees its loaded run. -/
def freeLoaded (l : List (K × Control × V)) (free : FreeMap) : FreeMap :=
  l.foldl (fun free e =>
    if e.2.1.newCount ≠ 0 then addFree free e.2.1.loadBlock e.2.1.loadCount else free) free

/-- The last loop of `finalize`, over the keys `ks` in iteration order: every entry with a new run
frees its loaded run and promotes the new one. The entries change independently of the free space,
so the loop is a map of the entries and a fold of the frees. -/
def promote (ks : List K) (m : List (K × Control × V)) (free : FreeMap) :
    List (K × Control × V) × FreeMap :=
  (m.map (fun e => if e.2.1.newCount ≠ 0 then (e.1, e.2.1.promote, e.2.2) else e),
   freeLoaded (entriesIn ks m) free)

/-- The terminator block of order `o` carrying the hash `h`. -/
def terminator (o : UInt64) (h : Digest) : BlockLayout where
  order := o
  size := 0
  data := h.bytes
  data_le := by simp [Digest.bytes, dataSize]

/-- `finalize` after its first loop: flush, write a terminator with the hash at a fresh block, flush
again, then free the previous terminator and promote the new runs, over the keys `ks`. When the
terminator write fails the order is given back, with error bit 128. -/
def writeTerminator (ks : List K) (s : Umap K V) : Option (Umap K V) :=
  let s := { s with data := s.data.flush }
  (getFree s.free 1).map fun (pos, free) =>
  let o : UInt64 := s.order + 1
  let w := s.data.writeBlock pos.toNat (terminator o s.hash)
  if w.1 then
    let p := promote ks s.map (addFree free s.lastf 1)
    { s with map := p.1, free := p.2, data := w.2.flush, lastf := pos, order := o, flush := o }
  else { s with error := s.error ||| 128, free := addFree free pos 1, data := w.2 }

/-- `umap::finalize`, iterating `m_map` in the order `ks`: nothing when no update is newer than the
last flush; else write the dirty entries and the terminator. -/
def finalize (ks : List K) (s : Umap K V) : Option (Umap K V) :=
  if s.order ≤ s.flush then some s else (writeDirty P ks s).bind (writeTerminator ks)

/-! ### Writer sessions -/

/-- An operation of `umap::writer`. -/
inductive WriterOp (K V : Type)
  /-- `writer[k]` and a store of `v` through the pointer it returns (nothing when `k` is
  absent). -/
  | index (k : K) (v : V)
  /-- `writer.add<modify>(k, v)`: insert `(k, v)` when `k` is absent. -/
  | add (modify : Bool) (k : K) (v : V)
  /-- `writer.get(k)`. -/
  | get (k : K)

/-- One writer operation on the map and the writer's `m_modify`. -/
def WriterOp.run : WriterOp K V → Umap K V × Bool → Umap K V × Bool
  | .index k v, (s, m) =>
    match findEntry k s.map with
    | some (c, _) =>
      let d := dirty P s.hash c
      ({ s with hash := d.1, map := setEntry k d.2 v s.map }, true)
    | none => (s, m)
  | .add modify k v, (s, m) =>
    match findEntry k s.map with
    | some (c, v') =>
      if modify then
        let d := dirty P s.hash c
        ({ s with hash := d.1, map := setEntry k d.2 v' s.map }, true)
      else (s, m)
    | none => ({ s with map := s.map ++ [(k, nullControl, v)] }, true)
  | .get _, sm => sm

omit [DecidableEq K] in
/-- An iteration order of `m_map`: in every state, the keys of the map, each once. -/
def IterOrder (it : Umap K V → List K) : Prop :=
  ∀ s, (it s).Perm (s.map.map Prod.fst)

omit [DecidableEq K] in
/-- The order of the map's list: the keys in the order they were inserted. -/
def insertionOrder (s : Umap K V) : List K :=
  s.map.map Prod.fst

omit [DecidableEq K] in
/-- The order of libstdc++'s `unordered_map` while every key has a bucket of its own: the newest
key first. -/
def newestFirst (s : Umap K V) : List K :=
  (s.map.map Prod.fst).reverse

omit [DecidableEq K] in
theorem iterOrder_insertionOrder : IterOrder (insertionOrder (K := K) (V := V)) :=
  fun _ => List.Perm.refl _

omit [DecidableEq K] in
theorem iterOrder_newestFirst : IterOrder (newestFirst (K := K) (V := V)) :=
  fun _ => List.reverse_perm _

/-- A writer session `umap::write(f)` (`flush = false`) or `umap::flush(f)` (`flush = true`),
iterating `m_map` in the order `it`: the operations of `f`, then the destructor, which writes the
dirty entries when anything was modified and finalizes when flushing. -/
def session (it : Umap K V → List K) (ops : List (WriterOp K V)) (flush : Bool) (s : Umap K V) :
    Option (Umap K V) :=
  let sm := ops.foldl (fun sm op => op.run P sm) (s, false)
  (if sm.2 then writeDirty P (it sm.1) sm.1 else some sm.1).bind fun s =>
    if flush then finalize P (it s) s else some s

/-- What a user of the map does between two opens of its container. -/
inductive Action (K V : Type)
  /-- `umap::write(f)`. -/
  | write (ops : List (WriterOp K V))
  /-- `umap::flush(f)`. -/
  | flushWith (ops : List (WriterOp K V))
  /-- `umap::flush()`. -/
  | flush

/-- Run one action, iterating `m_map` in the order `it`. -/
def Action.run (it : Umap K V → List K) : Action K V → Umap K V → Option (Umap K V)
  | .write ops => session P it ops false
  | .flushWith ops => session P it ops true
  | .flush => fun s => finalize P (it s) s

end Todokanai.Ssdb
