import Todokanai.Ssdb.Selection

/-!
# The terminators of a container over its runs

The rollback pass of `reload` keeps the last terminator whose order is `m_flush`, the first pass
the first with the largest order. They are the same block when the valid terminators of the file
have distinct orders, and every file that runs of the code leave has them. A terminator is written
only by `finalize`, with the order `m_order + 1`, after every earlier terminator on disk got an
order of at most `m_order`: `init` leaves `m_order` at least the order of every valid terminator of
the file, the other writes are record blocks, which are no terminators, and a crash keeps a subset
of those. The orders must not wrap past `2^64`, so each action starts with room for the orders it
takes.

* `TermsBelow`: the valid terminators of a list of blocks have distinct orders, none above a bound.
* `TermInv`: the invariant of a container: unsynced writes are no terminators and lie below
  `2^32`, and its durable blocks keep `TermsBelow` with `m_order`.
* `Runs`: the states of the container over runs from an empty file.
* `runs_terminatorsDistinct`: the file a crash leaves offers the first pass terminators of distinct
  orders.

Source: `src/src/util/ssdb.hpp`, `umap::write` (lines 307–374), `umap::finalize` (376–428),
`umap::reload` (127–294) and `umap::init` (444–461); `src/src/util/sfs.cpp`, `view::write_block`
and `view::flush`.
-/

namespace Todokanai.Ssdb

/-! ### Valid terminators among blocks -/

/-- The terminators that the blocks `bs` offer to the first pass have distinct orders. -/
def TerminatorsDistinct (bs : List (Nat × Option BlockLayout)) : Prop :=
  ∀ t ∈ terminators u64Max bs, ∀ t' ∈ terminators u64Max bs, t.2.order = t'.2.order → t = t'

theorem mem_scanned {d : Disk} {j : Nat} {ob : Option BlockLayout} :
    (j, ob) ∈ scanned d ↔ j < d.count % 2 ^ 32 ∧ ob = d.readBlock j := by
  simp only [scanned, List.mem_map, List.mem_range, Prod.mk.injEq]
  constructor
  · rintro ⟨j, hj, rfl, rfl⟩; exact ⟨hj, rfl⟩
  · rintro ⟨hj, rfl⟩; exact ⟨j, hj, rfl, rfl⟩

/-- A block that the first pass of `reload` takes for a terminator: an order in `[1, 2^63]` and
size `0`. -/
def BlockLayout.ValidTerminator (sb : BlockLayout) : Prop :=
  ¬ (0x7FFFFFFFFFFFFFFF : UInt64) ≤ sb.order - 1 ∧ sb.size = 0

instance : DecidablePred BlockLayout.ValidTerminator := fun _ => instDecidableAnd

theorem termOffer_max_eq_some {ob : Option BlockLayout} {sb : BlockLayout} :
    termOffer u64Max ob = some sb ↔ ob = some sb ∧ sb.ValidTerminator := by
  constructor
  · intro h
    obtain ⟨rfl, ⟨ho, -, -⟩, hs⟩ := termOffer_eq_some h
    exact ⟨rfl, ho, hs⟩
  · rintro ⟨rfl, ho, hs⟩
    have hmax : ¬ u64Max < sb.order := by
      rw [UInt64.lt_iff_toNat_lt]; exact Nat.not_lt.2 (Nat.le_pred_of_lt sb.order.toNat_lt)
    simp [termOffer, BlockLayout.Admitted, ho, hs, hmax]

theorem mem_terminators_ofFile {F : List (Option BlockLayout)} {fs : List Bool}
    {t : Nat × BlockLayout} : t ∈ terminators u64Max (scanned (Disk.ofFile F fs)) ↔
      t.1 < F.length % 2 ^ 32 ∧ F.get? t.1 = some (some t.2) ∧ t.2.ValidTerminator := by
  rw [mem_terminators]
  constructor
  · rintro ⟨ob, hb, ho⟩
    obtain ⟨hi, rfl⟩ := mem_scanned.1 hb
    obtain ⟨hr, hv⟩ := termOffer_max_eq_some.1 ho
    exact ⟨hi, Option.join_eq_some.1 hr, hv⟩
  · rintro ⟨hi, hF, hv⟩
    exact ⟨some t.2, mem_scanned.2 ⟨hi, (Option.join_eq_some.2 hF).symm⟩,
      termOffer_max_eq_some.2 ⟨rfl, hv⟩⟩

/-- The valid terminators among the blocks `bs` have distinct orders, none above `o`. -/
structure TermsBelow (bs : List (Option BlockLayout)) (o : Nat) : Prop where
  le : ∀ i sb, bs.get? i = some (some sb) → sb.ValidTerminator → sb.order.toNat ≤ o
  distinct : ∀ i j sb sb', bs.get? i = some (some sb) → bs.get? j = some (some sb') →
    sb.ValidTerminator → sb'.ValidTerminator → sb.order = sb'.order → i = j

theorem TermsBelow.mono {bs : List (Option BlockLayout)} {o o' : Nat} (h : TermsBelow bs o)
    (ho : o ≤ o') : TermsBelow bs o' :=
  ⟨fun i sb hi hv => (h.le i sb hi hv).trans ho, h.distinct⟩

/-- A block read back after a write is the written block, at its position, or was there
before. -/
theorem get?_putBlock {bs : List (Option BlockLayout)} {w : Nat × BlockLayout} {i : Nat}
    {sb : BlockLayout} (h : (putBlock bs w).get? i = some (some sb)) :
    (i = w.1 ∧ sb = w.2) ∨ (i ≠ w.1 ∧ bs.get? i = some (some sb)) := by
  rw [List.get?_eq_getElem?] at h ⊢
  unfold putBlock at h
  by_cases hi : i = w.1
  · subst hi
    split_ifs at h with hw
    · rw [List.getElem?_set_self hw] at h
      cases h; exact .inl ⟨rfl, rfl⟩
    · rw [List.getElem?_append_right (by simp; omega), List.length_append, List.length_replicate,
        show w.1 - (bs.length + (w.1 - bs.length)) = 0 by omega] at h
      cases h; exact .inl ⟨rfl, rfl⟩
  · refine .inr ⟨hi, ?_⟩
    split_ifs at h with hw
    · rwa [List.getElem?_set_ne (Ne.symm hi)] at h
    · by_cases hl : i < bs.length
      · rwa [List.append_assoc, List.getElem?_append_left hl] at h
      · by_cases hlt : i < w.1
        · rw [List.getElem?_append_left (by simp; omega), List.getElem?_append_right (by omega),
            List.getElem?_replicate, if_pos (by omega)] at h
          cases h
        · rw [List.getElem?_append_right (by simp; omega), List.length_append,
            List.length_replicate, show i - (bs.length + (w.1 - bs.length)) = i - w.1 - 1 + 1 by
              omega] at h
          cases h

theorem length_putBlock (bs : List (Option BlockLayout)) (w : Nat × BlockLayout) :
    (putBlock bs w).length = max bs.length (w.1 + 1) := by
  unfold putBlock
  split_ifs <;> simp <;> omega

/-- Writing a block keeps the valid terminators apart and below a bound `o'` when the block is no
terminator, or a terminator newer than all of them and not above `o'`. -/
theorem TermsBelow.putBlock {bs : List (Option BlockLayout)} {o o' : Nat} (h : TermsBelow bs o)
    (ho : o ≤ o') {w : Nat × BlockLayout}
    (hw : w.2.ValidTerminator → o < w.2.order.toNat ∧ w.2.order.toNat ≤ o') :
    TermsBelow (putBlock bs w) o' := by
  refine ⟨fun i sb hi hv => ?_, fun i j sb sb' hi hj hv hv' heq => ?_⟩
  · rcases get?_putBlock hi with ⟨-, rfl⟩ | ⟨-, hi⟩
    · exact (hw hv).2
    · exact (h.le i sb hi hv).trans ho
  · rcases get?_putBlock hi with ⟨rfl, rfl⟩ | ⟨hi₁, hi⟩ <;>
      rcases get?_putBlock hj with ⟨rfl, rfl⟩ | ⟨hj₁, hj⟩
    · rfl
    · have := h.le j sb' hj hv'; have := (hw hv).1; rw [heq] at *; omega
    · have := h.le i sb hi hv; have := (hw hv').1; rw [heq] at *; omega
    · exact h.distinct i j sb sb' hi hj hv hv' heq

/-- Writes of blocks that are no terminators keep the valid terminators as they were. -/
theorem TermsBelow.foldl {o : Nat} (ws : List (Nat × BlockLayout)) (hws : ∀ w ∈ ws, w.2.size ≠ 0) :
    ∀ {bs : List (Option BlockLayout)}, TermsBelow bs o →
      TermsBelow (ws.foldl Ssdb.putBlock bs) o := by
  induction ws with
  | nil => exact id
  | cons w ws ih =>
    intro bs h
    exact ih (fun w' hw' => hws w' (List.mem_cons_of_mem _ hw'))
      (h.putBlock le_rfl fun hv => absurd hv.2 (hws w (List.mem_cons_self _ _)))

theorem length_foldl_putBlock (ws : List (Nat × BlockLayout)) (hws : ∀ w ∈ ws, w.1 < 2 ^ 32) :
    ∀ {bs : List (Option BlockLayout)}, bs.length ≤ 2 ^ 32 →
      bs.length ≤ (ws.foldl Ssdb.putBlock bs).length ∧
        (ws.foldl Ssdb.putBlock bs).length ≤ 2 ^ 32 := by
  induction ws with
  | nil => intro bs h; exact ⟨le_rfl, h⟩
  | cons w ws ih =>
    intro bs h
    have hw := hws w (List.mem_cons_self _ _)
    have hl := length_putBlock bs w
    obtain ⟨h₁, h₂⟩ := ih (fun w' hw' => hws w' (List.mem_cons_of_mem _ hw'))
      (show (Ssdb.putBlock bs w).length ≤ 2 ^ 32 by omega)
    exact ⟨by simp only [List.foldl_cons]; omega, h₂⟩

/-- A file of at most `2^32` blocks whose valid terminators, while it has fewer, have distinct
orders, none above `o`. -/
def BlocksBelow (bs : List (Option BlockLayout)) (o : Nat) : Prop :=
  bs.length ≤ 2 ^ 32 ∧ (bs.length < 2 ^ 32 → TermsBelow bs o)

theorem blocksBelow_nil (o : Nat) : BlocksBelow [] o :=
  ⟨by simp, fun _ => ⟨fun i sb hi => by simp at hi, fun i j sb sb' hi => by simp at hi⟩⟩

/-- Writes below `2^32` of blocks that are no terminators keep `BlocksBelow`. -/
theorem BlocksBelow.foldl {bs : List (Option BlockLayout)} {o : Nat} (h : BlocksBelow bs o)
    (ws : List (Nat × BlockLayout)) (hws : ∀ w ∈ ws, w.1 < 2 ^ 32 ∧ w.2.size ≠ 0) :
    BlocksBelow (ws.foldl Ssdb.putBlock bs) o := by
  obtain ⟨hle, hlen⟩ := length_foldl_putBlock ws (fun w hw => (hws w hw).1) h.1
  exact ⟨hlen, fun hl => TermsBelow.foldl ws (fun w hw => (hws w hw).2) (h.2 (by omega))⟩

/-- Writing a terminator below `2^32`, newer than every valid terminator, keeps `BlocksBelow`
with its order. -/
theorem BlocksBelow.putBlock {bs : List (Option BlockLayout)} {o o' : Nat} (h : BlocksBelow bs o)
    (ho : o ≤ o') {w : Nat × BlockLayout} (hw₁ : w.1 < 2 ^ 32)
    (hw : w.2.ValidTerminator → o < w.2.order.toNat ∧ w.2.order.toNat ≤ o') :
    BlocksBelow (Ssdb.putBlock bs w) o' := by
  have hl := length_putBlock bs w
  exact ⟨by have := h.1; omega, fun hlt => (h.2 (by omega)).putBlock ho hw⟩

/-! ### The disk -/

namespace Disk

/-- What runs keep of the disk's blocks: the unsynced writes lie below `2^32` and are no
terminators, and the durable blocks keep `BlocksBelow` with `o`. -/
structure Inv (d : Disk) (o : Nat) : Prop where
  unsynced : ∀ w ∈ d.unsynced, w.1 < 2 ^ 32 ∧ w.2.size ≠ 0
  durable : BlocksBelow d.durable o

theorem Inv.mono {d : Disk} {o o' : Nat} (h : d.Inv o) (ho : o ≤ o') : d.Inv o' :=
  ⟨h.unsynced, h.durable.1, fun hl => (h.durable.2 hl).mono ho⟩

theorem Inv.blocks {d : Disk} {o : Nat} (h : d.Inv o) : BlocksBelow d.blocks o :=
  h.durable.foldl _ h.unsynced

theorem Inv.flush {d : Disk} {o : Nat} (h : d.Inv o) : d.flush.Inv o :=
  ⟨fun _ hw => absurd hw (List.not_mem_nil _), h.blocks⟩

/-- The file a crash leaves keeps `BlocksBelow`: the unsynced writes it keeps are no
terminators. -/
theorem Inv.crash {d : Disk} {o : Nat} (h : d.Inv o) (keep : Nat → Bool) :
    BlocksBelow (d.crash keep) o := by
  unfold Disk.crash
  generalize hL : (d.unsynced.zip (List.range d.unsynced.length)).filter (fun w => keep w.2) = L
  rw [show L.foldl (fun bs w => Ssdb.putBlock bs w.1) d.durable =
    (L.map Prod.fst).foldl Ssdb.putBlock d.durable from (List.foldl_map _ _ _ _).symm]
  exact h.durable.foldl _ fun w hw => by
    obtain ⟨w', hw', rfl⟩ := List.mem_map.1 hw
    rw [← hL] at hw'
    exact h.unsynced _ (List.of_mem_zip (List.mem_filter.1 hw').1).1

theorem ofFile_inv {F : List (Option BlockLayout)} {o : Nat} (h : BlocksBelow F o)
    (fs : List Bool) : (ofFile F fs).Inv o :=
  ⟨fun _ hw => absurd hw (List.not_mem_nil _), h⟩

theorem writeBlock_durable (d : Disk) (i : Nat) (b : BlockLayout) :
    (d.writeBlock i b).2.durable = d.durable := by
  unfold writeBlock
  split
  · rfl
  · split <;> rfl

theorem writeBlock_unsynced (d : Disk) (i : Nat) (b : BlockLayout) :
    (d.writeBlock i b).2.unsynced = if (d.writeBlock i b).1 then d.unsynced ++ [(i, b)]
      else d.unsynced := by
  unfold writeBlock
  split
  · rfl
  · split <;> rfl

/-- Writing a block below `2^32` that is no terminator keeps the invariant. -/
theorem Inv.writeBlock {d : Disk} {o : Nat} (h : d.Inv o) {i : Nat} {b : BlockLayout}
    (hi : i < 2 ^ 32) (hb : b.size ≠ 0) : (d.writeBlock i b).2.Inv o := by
  refine ⟨fun w hw => ?_, by rw [writeBlock_durable]; exact h.durable⟩
  rw [writeBlock_unsynced] at hw
  split_ifs at hw
  · rcases List.mem_append.1 hw with hw | hw
    · exact h.unsynced w hw
    · rw [List.mem_singleton.1 hw]; exact ⟨hi, hb⟩
  · exact h.unsynced w hw

end Disk

theorem Disk.blocks_writeBlock {d : Disk} {i : Nat} {b : BlockLayout}
    (h : (d.writeBlock i b).1 = true) : (d.writeBlock i b).2.blocks = putBlock d.blocks (i, b) := by
  rw [Disk.blocks, Disk.writeBlock_durable, Disk.writeBlock_unsynced, if_pos h, List.foldl_append]
  rfl

/-- A block write followed by a flush keeps the invariant with a bound `o'` when the block is no
terminator or one newer than every valid terminator and not above `o'`. -/
theorem Disk.Inv.writeBlock_flush {d : Disk} {o o' : Nat} (h : d.Inv o) (ho : o ≤ o') {i : Nat}
    {b : BlockLayout} (hi : i < 2 ^ 32)
    (hb : b.ValidTerminator → o < b.order.toNat ∧ b.order.toNat ≤ o') :
    (d.writeBlock i b).2.flush.Inv o' := by
  refine ⟨fun _ hw => absurd hw (List.not_mem_nil _), ?_⟩
  show BlocksBelow (d.writeBlock i b).2.blocks o'
  by_cases hw : (d.writeBlock i b).1 = true
  · rw [Disk.blocks_writeBlock hw]
    exact h.blocks.putBlock ho hi hb
  · have hu := Disk.writeBlock_unsynced d i b
    rw [if_neg hw] at hu
    have hd : (d.writeBlock i b).2.blocks = d.blocks := by
      rw [Disk.blocks, Disk.writeBlock_durable, hu]; rfl
    rw [hd]
    exact (h.mono ho).blocks

/-! ### The writes of the map -/

/-- A block `umap::write` issues is no terminator: a head carries the record's size, which is not
`0`, and the other blocks carry `2^64 - 1`. -/
theorem recordBlock_size_ne_zero (o : UInt64) {buf : List UInt8} (hb : buf.length < 2 ^ 64)
    {j : Nat} (hj : j ∈ List.range (blockCount buf.length).toNat) :
    (recordBlock o buf j).size ≠ 0 := by
  unfold recordBlock; dsimp only
  split_ifs with h0
  · have hl : buf.length ≠ 0 := fun hl => by
      rw [hl, show (blockCount 0).toNat = 0 from rfl] at hj
      exact List.not_mem_nil _ hj
    rw [Ne, UInt64.eq_iff_toNat_eq, Nat.toNat_toUInt64, Nat.mod_eq_of_lt hb]
    exact hl
  · decide

theorem Disk.Inv.writeRun {d : Disk} {o : Nat} (h : d.Inv o) (start : UInt32) (ord : UInt64)
    (buf : List UInt8) (is : List Nat) (hs : ∀ j ∈ is, (recordBlock ord buf j).size ≠ 0) :
    (Ssdb.writeRun start ord buf is d).2.Inv o := by
  induction is generalizing d with
  | nil => exact h
  | cons j is ih =>
    simp only [Ssdb.writeRun]
    have h' := h.writeBlock (UInt32.toNat_lt (start + j.toUInt32)) (hs j (List.mem_cons_self _ _))
    split
    · exact ih h' fun j' hj' => hs j' (List.mem_cons_of_mem _ hj')
    · exact h'

variable {K V : Type}

/-- The invariant that runs keep of the terminators of a container: its disk keeps `Disk.Inv` with
`m_order`. -/
def TermInv (s : Umap K V) : Prop :=
  s.data.Inv s.order.toNat

/-- Writing the terminator keeps the invariant: its order `m_order + 1` is newer than every valid
terminator on disk. -/
theorem termInv_writeTerminator [DecidableEq K] {ks : List K} {s s' : Umap K V} (hs : TermInv s)
    (hord : s.order.toNat + 1 < 2 ^ 64) (h : writeTerminator ks s = some s') : TermInv s' := by
  unfold writeTerminator at h
  obtain ⟨⟨pos, free⟩, -, rfl⟩ := Option.map_eq_some'.1 h
  have hflush : s.data.flush.Inv s.order.toNat := Disk.Inv.flush hs
  dsimp only
  split
  · show (s.data.flush.writeBlock pos.toNat (terminator (s.order + 1) s.hash)).2.flush.Inv
      (s.order + 1).toNat
    rw [toNat_order_succ hord]
    exact hflush.writeBlock_flush (by omega) (UInt32.toNat_lt _) fun _ => ⟨by simp [terminator,
      toNat_order_succ hord], by simp [terminator, toNat_order_succ hord]⟩
  · show (s.data.flush.writeBlock pos.toNat (terminator (s.order + 1) s.hash)).2.Inv s.order.toNat
    rename_i hw
    have hu := Disk.writeBlock_unsynced s.data.flush pos.toNat (terminator (s.order + 1) s.hash)
    rw [if_neg hw] at hu
    exact ⟨by rw [hu]; exact hflush.unsynced, by rw [Disk.writeBlock_durable]; exact hflush.durable⟩

@[simp] theorem selectPass_order (st : ScanState K V) : (selectPass st).1.order = st.u.order := by
  unfold selectPass; dsimp only; split_ifs <;> rfl

variable [DecidableEq K] (P : Params K V)

/-- A write keeps the invariant when its order does not wrap: its blocks are no terminators, and
`m_order` grows by one or is given back. -/
theorem termInv_writeEntry (hsave : ∀ k v, (P.save k v).length < 2 ^ 64) {s s' : Umap K V}
    {k : K} {c : Control} {v : V} (hs : TermInv s) (hord : s.order.toNat + 1 < 2 ^ 64)
    (h : writeEntry P s k c v = some s') : TermInv s' := by
  unfold writeEntry at h
  obtain ⟨⟨free, c₁⟩, -, rfl⟩ := Option.map_eq_some'.1 h
  have hw := hs.writeRun c₁.newBlock c₁.order (P.save k v) _
    fun j hj => recordBlock_size_ne_zero c₁.order (hsave k v) hj
  dsimp only
  split
  · exact hw.mono (by rw [toNat_order_succ hord]; omega)
  · exact hw.mono (by simp)

/-- The loop of the writer's destructor keeps the invariant while its orders do not wrap. -/
theorem termInv_writeDirty (hsave : ∀ k v, (P.save k v).length < 2 ^ 64) (ks : List K) :
    ∀ {s s' : Umap K V}, TermInv s → s.order.toNat + ks.length < 2 ^ 64 →
      writeDirty P ks s = some s' → TermInv s' := by
  induction ks with
  | nil => intro s s' hs _ h; cases h; exact hs
  | cons k ks ih =>
    intro s s' hs hg h
    rw [List.length_cons] at hg
    simp only [writeDirty] at h
    split at h
    · split at h
      · obtain ⟨s₁, h₁, h₂⟩ := Option.bind_eq_some.1 h
        have ho₁ := writeEntry_order P (by omega) h₁
        exact ih (termInv_writeEntry P hsave hs (by omega) h₁) (by omega) h₂
      · exact ih hs (by omega) h
    · exact ih hs (by omega) h

/-- `finalize`, in any order of the keys, keeps the invariant while its orders do not wrap. -/
theorem termInv_finalize (hsave : ∀ k v, (P.save k v).length < 2 ^ 64) {ks : List K}
    {s s' : Umap K V} (hs : TermInv s) (hg : s.order.toNat + ks.length + 1 < 2 ^ 64)
    (h : finalize P ks s = some s') : TermInv s' := by
  unfold finalize at h
  split at h
  · cases h; exact hs
  · obtain ⟨s₁, h₁, h₂⟩ := Option.bind_eq_some.1 h
    have hg' : s.order.toNat + ks.length < 2 ^ 64 := by omega
    have ho₁ := (writeDirty_frame P _ hg' h₁).1
    exact termInv_writeTerminator (termInv_writeDirty P hsave _ hs hg' h₁) (by omega) h₂

/-! ### Writer sessions and actions -/

@[simp] theorem run_data (o : WriterOp K V) (sm : Umap K V × Bool) :
    (o.run P sm).1.data = sm.1.data := by
  obtain ⟨s, m⟩ := sm
  cases o with
  | index k v => simp only [WriterOp.run]; split <;> rfl
  | add modify k v => simp only [WriterOp.run]; split; (split <;> rfl); rfl
  | get k => rfl

/-- Writer operations leave the disk and `m_order`, and add at most one entry each. -/
theorem foldl_run_frame (ops : List (WriterOp K V)) (sm : Umap K V × Bool) :
    (ops.foldl (fun sm op => op.run P sm) sm).1.data = sm.1.data ∧
      (ops.foldl (fun sm op => op.run P sm) sm).1.order = sm.1.order ∧
      (ops.foldl (fun sm op => op.run P sm) sm).1.map.length ≤ sm.1.map.length + ops.length := by
  induction ops generalizing sm with
  | nil => exact ⟨rfl, rfl, by simp⟩
  | cons o ops ih =>
    obtain ⟨hd, ho, hl⟩ := ih (o.run P sm)
    have := run_length P o sm
    simp only [List.foldl_cons, List.length_cons]
    exact ⟨hd.trans (run_data P o sm), ho.trans (run_order P o sm), by omega⟩

/-- A writer session, in any iteration order, keeps the invariant when it starts with room for one
order per entry it writes, and, when it flushes, as many again and one for the terminator. -/
theorem termInv_session (hsave : ∀ k v, (P.save k v).length < 2 ^ 64)
    {it : Umap K V → List K} (hit : IterOrder it) (ops : List (WriterOp K V))
    (flush : Bool) {s s' : Umap K V} (hs : TermInv s)
    (hg : s.order.toNat + (s.map.length + ops.length) < 2 ^ 64)
    (hf : flush = true → s.order.toNat + 2 * (s.map.length + ops.length) + 1 < 2 ^ 64)
    (h : session P it ops flush s = some s') : TermInv s' := by
  obtain ⟨hd, ho, hl⟩ := foldl_run_frame P ops (s, false)
  dsimp only at hd ho hl
  unfold session at h
  obtain ⟨s₁, h₁, h₂⟩ := Option.bind_eq_some.1 h
  generalize List.foldl (fun sm op => WriterOp.run P op sm) (s, false) ops = sm at hd ho hl h₁
  have hsm : TermInv sm.1 := by unfold TermInv; rw [hd, ho]; exact hs
  have hr₁ : TermInv s₁ ∧ s₁.order.toNat ≤ s.order.toNat + (s.map.length + ops.length) ∧
      s₁.map.length = sm.1.map.length := by
    split at h₁
    · have hg' : sm.1.order.toNat + (it sm.1).length < 2 ^ 64 := by
        rw [(hit _).length_eq, List.length_map, ho]; omega
      obtain ⟨ho₁, -, hk₁⟩ := writeDirty_frame P _ hg' h₁
      have hl₁ := congrArg List.length hk₁
      rw [(hit _).length_eq] at ho₁
      simp only [List.length_map] at hl₁ ho₁
      exact ⟨termInv_writeDirty P hsave _ hsm hg' h₁, by rw [ho] at ho₁; omega, hl₁⟩
    · cases h₁; exact ⟨hsm, by rw [ho]; omega, rfl⟩
  split at h₂
  · have := hf ‹_›
    exact termInv_finalize P hsave hr₁.1 (by rw [(hit _).length_eq, List.length_map]; omega) h₂
  · cases h₂; exact hr₁.1

/-- The orders an action may take from `s`: one per entry its destructor writes, as many again
in `finalize`, and one for the terminator. -/
def Action.room : Action K V → Umap K V → Nat
  | .write ops, s => s.map.length + ops.length
  | .flushWith ops, s => 2 * (s.map.length + ops.length) + 1
  | .flush, s => s.map.length + 1

/-- An action, in any iteration order, keeps the invariant when it starts with room for its
orders. -/
theorem termInv_run (hsave : ∀ k v, (P.save k v).length < 2 ^ 64) (a : Action K V)
    {it : Umap K V → List K} (hit : IterOrder it) {s s' : Umap K V} (hs : TermInv s)
    (hg : s.order.toNat + a.room s < 2 ^ 64) (h : a.run P it s = some s') : TermInv s' := by
  cases a with
  | write ops => exact termInv_session P hsave hit ops false hs hg nofun h
  | flushWith ops =>
    exact termInv_session P hsave hit ops true hs (by simp only [Action.room] at hg; omega)
      (fun _ => hg) h
  | flush =>
    exact termInv_finalize P hsave hs
      (by rw [(hit _).length_eq, List.length_map]; simpa only [Action.room, Nat.add_assoc] using hg)
      h

/-! ### Opening a file -/

/-- Every pass of `reload` ends with `m_order` at least the order of every valid terminator. -/
theorem reloadPass_order_ge (s : Umap K V) :
    ∀ t ∈ terminators u64Max (scanned s.data),
      t.2.order.toNat ≤ (reloadPass P s).1.order.toNat := by
  obtain ⟨st, hk, hp⟩ := reloadPass_kept P s
  intro t ht
  rw [hp, selectPass_order]
  by_cases hf : s.flush = u64Max
  · rw [show st.u.order = _ from congrArg Prod.fst (hk.first hf)]
    exact le_keptTerminator_newest ht
  · exact hk.above hf t ht

/-- `reload` reads the file only, and leaves `m_order` below `2^63` and at least the order of every
valid terminator. -/
theorem reload_order (fuel : Nat) {s u : Umap K V} (h : reload P fuel s = some u) :
    u.data = s.data ∧ u.order.toNat < 2 ^ 63 ∧
      ∀ t ∈ terminators u64Max (scanned s.data), t.2.order.toNat ≤ u.order.toNat := by
  have hpass : ∀ s : Umap K V, (reloadPass P s).1.data = s.data ∧
      (reloadPass P s).1.order.toNat < 2 ^ 63 ∧ ∀ t ∈ terminators u64Max (scanned s.data),
        t.2.order.toNat ≤ (reloadPass P s).1.order.toNat := fun s => by
    obtain ⟨st, -, ho, hr⟩ := reloadPass_eq P s
    exact ⟨reloadPass_data P s, by rw [hr, selectPass_order]; exact ho, reloadPass_order_ge P s⟩
  induction fuel generalizing s with
  | zero => cases h
  | succ fuel ih =>
    simp only [reload] at h
    split at h
    · obtain ⟨hd, ho, hge⟩ := ih h
      rw [(hpass s).1] at hd hge
      exact ⟨hd, ho, hge⟩
    · cases h; exact hpass s

/-- Opening a file whose valid terminators keep `BlocksBelow` keeps the invariant: `reload`
leaves `m_order` at least their orders, and the terminator `init` may write is newer. -/
theorem termInv_reopen {F : List (Option BlockLayout)} {fs : List Bool} {o : Nat} {s : Umap K V}
    (hF : BlocksBelow F o) (h : reopen P F fs = some s) : TermInv s := by
  unfold reopen init at h
  obtain ⟨u, hu, h⟩ := Option.bind_eq_some.1 h
  obtain ⟨hd, ho, hge⟩ := reload_order P 3 hu
  have hinv : TermInv u := by
    unfold TermInv; rw [hd]
    refine Disk.ofFile_inv ⟨hF.1, fun hl => ⟨fun i sb hi hv => ?_, (hF.2 hl).distinct⟩⟩ fs
    have hlt : i < F.length := by
      rw [List.get?_eq_getElem?] at hi
      exact (List.getElem?_eq_some_iff.1 hi).1
    exact hge (i, sb) (mem_terminators_ofFile.2 ⟨by rw [Nat.mod_eq_of_lt hl]; exact hlt, hi, hv⟩)
  split at h
  · unfold finalize at h
    split at h
    · cases h; exact hinv
    · rw [writeDirty_of_loaded P (fun e he => ((scanInv_reload P hu).loaded e he).1),
        Option.some_bind] at h
      exact termInv_writeTerminator hinv (by omega) h
  · cases h; exact hinv

/-! ### Runs -/

/-- The states of a container over runs of the code from an empty file: opened on it, changed by
actions, each in any iteration order of `m_map`, that start with room for the orders they take,
and opened again on the file that each crash leaves. -/
inductive Runs : Umap K V → Prop
  | start {fs : List Bool} {s : Umap K V} : reopen P [] fs = some s → Runs s
  | act {s s' : Umap K V} (a : Action K V) {it : Umap K V → List K} : Runs s → IterOrder it →
      s.order.toNat + a.room s < 2 ^ 64 → a.run P it s = some s' → Runs s'
  | crash {s s' : Umap K V} (keep : Nat → Bool) : Runs s →
      reopen P (s.data.crash keep) s.data.failures = some s' → Runs s'

theorem termInv_of_runs (hsave : ∀ k v, (P.save k v).length < 2 ^ 64) {s : Umap K V}
    (h : Runs P s) : TermInv s := by
  induction h with
  | start h =>
    exact termInv_reopen P (blocksBelow_nil 0) h
  | act a _ hit hg h ih => exact termInv_run P hsave a hit ih hg h
  | crash keep _ h ih => exact termInv_reopen P (Disk.Inv.crash ih keep) h

/-- The file that a crash leaves at any point of a run offers the first pass of `reload`
terminators of distinct orders. -/
theorem runs_terminatorsDistinct (hsave : ∀ k v, (P.save k v).length < 2 ^ 64) {s : Umap K V}
    (h : Runs P s) (keep : Nat → Bool) (fs : List Bool) :
    TerminatorsDistinct (scanned (Disk.ofFile (s.data.crash keep) fs)) := by
  have hF := Disk.Inv.crash (termInv_of_runs P hsave h) keep
  intro t ht t' ht' heq
  obtain ⟨hi, hti, htv⟩ := mem_terminators_ofFile.1 ht
  obtain ⟨-, hti', htv'⟩ := mem_terminators_ofFile.1 ht'
  have hl : (s.data.crash keep).length < 2 ^ 32 := by
    have := hF.1
    by_contra hl
    rw [show (s.data.crash keep).length = 2 ^ 32 by omega, Nat.mod_self] at hi
    exact Nat.not_lt_zero _ hi
  have hpos := (hF.2 hl).distinct _ _ _ _ hti hti' htv htv' heq
  rw [hpos, hti'] at hti
  exact Prod.ext hpos (Option.some_injective _ (Option.some_injective _ hti)).symm

end Todokanai.Ssdb
