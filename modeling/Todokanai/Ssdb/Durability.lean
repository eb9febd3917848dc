import Todokanai.Ssdb.Writes

/-!
# Fault-free runs keep one owner per block

Take runs of the code from an empty file in which no write of the view fails and every record
fits one data field. Over such runs the map keeps an invariant that ties its members to the
blocks of the file: every block has one owner (`BlocksPartitioned`), the free map has the shape
`FreeShape` with every block past the file free, the head of every entry with an order holds its
record, every other record of its key is older, and no terminator is newer than `m_flush`, the
one of order `m_flush` being at `m_lastf`. Between actions every entry is written, and after a
flush, when `m_order = m_flush`, the terminator at `m_lastf` carries the hash of the map and no
write is pending.

The proof covers these runs only. With one data field per record every run is one block long, so
allocations and frees of one block keep the shape of the free map (`FreeShape`); longer runs would
need the set that the free map denotes (`free_space_refines`) in its place. Without write failures
every action succeeds and leaves every entry written (`Settled`). The runs never reopen a file
that holds blocks, so they do not meet the scan, which drops records of two data fields and can
take back a record in flight at a crash. And the orders must stay below `2^32 - 3`, so that the
file stays below `2^32 - 1` blocks. The loops over `m_map` may take its keys in any order.

* `StoreInv`: the invariant, kept by every operation of a writer (`storeInv_run`), by
  `write(item)` (`storeInv_writeEntry`) and by the end of `finalize` (`storeInv_writeTerminator`).
* `Settled`: what holds between actions; `settled_run`: every action with room for its orders
  succeeds and settles again.
* `FaultFree`: the states of fault-free runs from an empty file.
* `blocks_partitioned`: every block has one owner over such runs.

Source: `src/src/util/ssdb.hpp`, `umap::write` (lines 307–374), `umap::finalize` (376–428),
`umap::init` (444–461) and the writer (542–645); `free_space` in `src/src/util/ssdb.cpp`
(lines 43–147).
-/

namespace Todokanai.Ssdb

variable {K V : Type} (P : Params K V)

/-! ### The invariant -/

/-- What fault-free runs with records of one block keep between any two steps of the code. -/
structure StoreInv (s : Umap K V) : Prop where
  hash : HashInv P s
  /-- No write of the view fails. -/
  failures : s.data.failures = []
  /-- Every write takes an order and adds at most one block to the file. -/
  count_le : s.data.count ≤ s.order.toNat
  flush_le : s.flush.toNat ≤ s.order.toNat
  /-- A flush leaves no write pending until the next update. -/
  synced : s.order = s.flush → s.data.unsynced = []
  free : FreeShape s.free s.data.count (decide (s.lastf ≠ 0xFFFFFFFF))
  owners : BlocksPartitioned s
  /-- `m_lastf` is `2^32 - 1` until the first terminator, and a block of the file after it. -/
  lastf : (s.flush = 0 ∧ s.lastf = 0xFFFFFFFF) ∨ (s.flush ≠ 0 ∧ s.lastf.toNat < s.data.count)
  /-- Runs have one block at most, in the file, and an empty new run starts at `0`. -/
  load : ∀ e ∈ s.map, e.2.1.loadCount.toNat ≤ 1 ∧
    (e.2.1.loadCount ≠ 0 → e.2.1.loadBlock.toNat < s.data.count)
  new : ∀ e ∈ s.map, e.2.1.newCount.toNat ≤ 1 ∧
    (e.2.1.newCount ≠ 0 → e.2.1.newBlock.toNat < s.data.count) ∧
    (e.2.1.newCount = 0 → e.2.1.newBlock = 0)
  /-- The head of an entry with an order holds its record. -/
  record : ∀ e ∈ s.map, e.2.1.order ≠ 0 → (e.2.1.newCount ≠ 0 ∨ e.2.1.loadCount ≠ 0) ∧
    s.data.readBlock e.2.1.head.toNat = some (recordBlock e.2.1.order (P.save e.1 e.2.2) 0)
  /-- An entry has a new run exactly when it was written after the last flush. -/
  fresh : ∀ e ∈ s.map, e.2.1.order ≠ 0 → (e.2.1.newCount ≠ 0 ↔ s.flush < e.2.1.order)
  /-- No block is newer than `m_order`. -/
  orders : ∀ j sb, s.data.readBlock j = some sb → sb.order.toNat ≤ s.order.toNat
  /-- Every other record of the key of an entry with an order is older. -/
  newest : ∀ e ∈ s.map, e.2.1.order ≠ 0 → ∀ j x,
    recordOffer P u64Max j (s.data.readBlock j) = some (e.1, x) →
      j = e.2.1.head.toNat ∨ x.1.order < e.2.1.order
  /-- Every record is of a key of the map. -/
  keys : ∀ j x, recordOffer P u64Max j (s.data.readBlock j) = some x → x.1 ∈ s.map.map Prod.fst
  /-- No terminator is newer than `m_flush`, and the one of order `m_flush` is at `m_lastf`. -/
  terms : ∀ j sb, s.data.readBlock j = some sb → sb.size = 0 →
    sb.order.toNat ≤ s.flush.toNat ∧ (sb.order = s.flush → j = s.lastf.toNat)

/-! ### Records of one block -/

theorem blockCount_one {n : Nat} (h : 0 < n ∧ n ≤ dataSize) : blockCount n = 1 := by
  unfold blockCount dataSize at *
  rcases Nat.lt_or_ge n 4032 with h' | h'
  · rw [Nat.div_eq_of_lt h', Nat.mod_eq_of_lt h', if_pos (by omega)]; rfl
  · rw [show n = 4032 by omega]; rfl

theorem toNat_length_toUInt64 {buf : List UInt8} (h : buf.length ≤ dataSize) :
    buf.length.toUInt64.toNat = buf.length := by
  rw [Nat.toNat_toUInt64, Nat.mod_eq_of_lt (by unfold dataSize at h; omega)]

theorem recordBlock_size_ne_zero' (o : UInt64) {buf : List UInt8}
    (h : 0 < buf.length ∧ buf.length ≤ dataSize) : (recordBlock o buf 0).size ≠ 0 := by
  rw [recordBlock_size_head, Ne, UInt64.eq_iff_toNat_eq, toNat_length_toUInt64 h.2]
  simpa using h.1.ne'

variable {P}

/-- The record a head of one data field offers decodes its data. -/
theorem recordOffer_recordBlock_key {f : UInt64} {j : Nat} {o : UInt64} {buf : List UInt8}
    (hb : buf.length ≤ dataSize) {x : K × Control × V}
    (h : recordOffer P f j (some (recordBlock o buf 0)) = some x) : x.1 = (P.load buf).1 := by
  simp only [recordOffer] at h
  split_ifs at h
  cases h
  rw [recordBlock_size_head, toNat_length_toUInt64 hb, recordBlock_dataPrefix_head o hb]


variable (P)

/-! ### The operations of a writer -/

@[simp] theorem dirty_snd_order (h : Digest) (c : Control) : (dirty P h c).2.order = 0 := by
  unfold dirty; split
  · rfl
  · exact not_not.1 ‹_›

@[simp] theorem dirty_snd_loadBlock (h : Digest) (c : Control) :
    (dirty P h c).2.loadBlock = c.loadBlock := by
  unfold dirty; split <;> rfl

@[simp] theorem dirty_snd_loadCount (h : Digest) (c : Control) :
    (dirty P h c).2.loadCount = c.loadCount := by
  unfold dirty; split <;> rfl

section Writer

variable [DecidableEq K]

/-- A new control with the runs of the old one leaves every count of the runs of the entries. -/
theorem countP_setEntry_runs {k : K} {c c' : Control} {v₀ v : V} {m : List (K × Control × V)}
    (hk : (m.map Prod.fst).Nodup) (hf : findEntry k m = some (c, v₀))
    (hl : c'.loadBlock = c.loadBlock)
    (hlc : c'.loadCount = c.loadCount) (hn : c'.newBlock = c.newBlock)
    (hnc : c'.newCount = c.newCount) (p : Nat) :
    (setEntry k c' v m).countP (fun e => inRun e.2.1.loadBlock e.2.1.loadCount p) =
        m.countP (fun e => inRun e.2.1.loadBlock e.2.1.loadCount p) ∧
      (setEntry k c' v m).countP (fun e => inRun e.2.1.newBlock e.2.1.newCount p) =
        m.countP (fun e => inRun e.2.1.newBlock e.2.1.newCount p) := by
  have h₁ := countP_setEntry (fun e => inRun e.2.1.loadBlock e.2.1.loadCount p) hk hf c' v
  have h₂ := countP_setEntry (fun e => inRun e.2.1.newBlock e.2.1.newCount p) hk hf c' v
  dsimp only at h₁ h₂
  rw [hl, hlc] at h₁
  rw [hn, hnc] at h₂
  omega

/-- Dirtying an entry keeps the invariant: its order is cleared and its pair leaves the hash, its
runs stay. -/
theorem storeInv_dirty {s : Umap K V} (hs : StoreInv P s) {k : K} {c : Control} {v₀ : V}
    (hf : findEntry k s.map = some (c, v₀)) (v : V) :
    StoreInv P { s with
      hash := (dirty P s.hash c).1
      map := setEntry k (dirty P s.hash c).2 v s.map } := by
  have hmem := mem_of_findEntry hf
  have hcount := countP_setEntry_runs (v := v) hs.hash.nodup hf (dirty_snd_loadBlock P s.hash c)
    (dirty_snd_loadCount P s.hash c) (dirty_snd_newBlock P s.hash c) (dirty_snd_newCount P s.hash c)
  have entry : ∀ e ∈ setEntry k (dirty P s.hash c).2 v s.map, e.2.1.order = 0 ∨ e ∈ s.map :=
    fun e he => (mem_setEntry_cases he).imp (fun h => by rw [h]; exact dirty_snd_order P _ _)
      And.left
  refine ⟨hashInv_dirty P hs.hash hf v, hs.failures, hs.count_le, hs.flush_le, hs.synced, hs.free,
    fun p hp => ⟨?_, (hs.owners p hp).2⟩, hs.lastf, fun e he => ?_, fun e he => ?_,
    fun e he ho => ?_, fun e he ho => ?_, hs.orders, fun e he ho => ?_, ?_, hs.terms⟩
  · obtain ⟨h₁, h₂⟩ := hcount p
    have := (hs.owners p hp).1
    unfold ownerCount at this ⊢
    dsimp only
    rw [h₁, h₂]; exact this
  · rcases mem_setEntry_cases he with rfl | ⟨he, -⟩
    · simp only [dirty_snd_loadCount, dirty_snd_loadBlock]; exact hs.load _ hmem
    · exact hs.load e he
  · rcases mem_setEntry_cases he with rfl | ⟨he, -⟩
    · simp only [dirty_snd_newCount, dirty_snd_newBlock]; exact hs.new _ hmem
    · exact hs.new e he
  · exact hs.record e ((entry e he).resolve_left ho) ho
  · exact hs.fresh e ((entry e he).resolve_left ho) ho
  · exact hs.newest e ((entry e he).resolve_left ho) ho
  · intro j x hx; rw [setEntry_keys]; exact hs.keys j x hx

@[simp] theorem inRun_zero (b : UInt32) (p : Nat) : inRun b 0 p = false := by
  simp [inRun]

/-- A new key enters with the null control, of no order and no run. -/
theorem storeInv_append {s : Umap K V} (hs : StoreInv P s) {k : K} (hf : findEntry k s.map = none)
    (v : V) : StoreInv P { s with map := s.map ++ [(k, nullControl, v)] } := by
  have hk := findEntry_eq_none.1 hf
  have entry : ∀ e ∈ s.map ++ [(k, nullControl, v)], e = (k, nullControl, v) ∨ e ∈ s.map :=
    fun e he => (List.mem_append.1 he).symm.imp List.mem_singleton.1 id
  refine ⟨⟨by
      rw [List.map_append, List.map_singleton]
      exact List.nodup_append.2 ⟨hs.hash.nodup, List.nodup_singleton _,
        fun a ha hb => hk (by rw [List.mem_singleton.1 hb] at ha; exact ha)⟩, by
      simp [combined_append, hs.hash.hash_eq, contribution, nullControl]⟩,
    hs.failures, hs.count_le, hs.flush_le, hs.synced, hs.free,
    fun p hp => ⟨?_, (hs.owners p hp).2⟩, hs.lastf, fun e he => ?_, fun e he => ?_,
    fun e he ho => ?_, fun e he ho => ?_, hs.orders, fun e he ho => ?_, ?_, hs.terms⟩
  · have := (hs.owners p hp).1
    unfold ownerCount at this ⊢
    simpa only [List.countP_append, List.countP_cons, List.countP_nil, nullControl, inRun_zero,
      Bool.false_eq_true, ↓reduceIte, Nat.add_zero] using this
  · rcases entry e he with rfl | he
    · exact ⟨Nat.zero_le 1, fun h => absurd rfl h⟩
    · exact hs.load e he
  · rcases entry e he with rfl | he
    · exact ⟨Nat.zero_le 1, fun h => absurd rfl h, fun _ => rfl⟩
    · exact hs.new e he
  · rcases entry e he with rfl | he
    · exact absurd rfl ho
    · exact hs.record e he ho
  · rcases entry e he with rfl | he
    · exact absurd rfl ho
    · exact hs.fresh e he ho
  · rcases entry e he with rfl | he
    · exact absurd rfl ho
    · exact hs.newest e he ho
  · intro j x hx; rw [List.map_append]; exact List.mem_append_left _ (hs.keys j x hx)

/-- Every operation of a writer keeps the invariant. -/
theorem storeInv_run (o : WriterOp K V) (m : Bool) {s : Umap K V} (hs : StoreInv P s) :
    StoreInv P (o.run P (s, m)).1 := by
  cases o with
  | index k v =>
    simp only [WriterOp.run]; split
    · exact storeInv_dirty P hs ‹_› v
    · exact hs
  | add modify k v =>
    simp only [WriterOp.run]; split
    · split
      · exact storeInv_dirty P hs ‹_› _
      · exact hs
    · exact storeInv_append P hs ‹_› v
  | get k => exact hs

/-! ### `write(item)` -/

theorem addFree_zero (m : FreeMap) (b : UInt32) : addFree m b 0 = m := by
  simp [addFree]

theorem inRun_one (b : UInt32) (p : Nat) : inRun b 1 p = decide (p = b.toNat) := by
  unfold inRun
  rw [toNat_u32One]
  by_cases h : p = b.toNat <;> simp [h]
  omega

theorem toNat_le_one {n : UInt32} (h : n.toNat ≤ 1) : n = 0 ∨ n = 1 := by
  rcases Nat.le_one_iff_eq_zero_or_eq_one.1 h with h | h
  · exact .inl (UInt32.eq_iff_toNat_eq.2 h)
  · exact .inr (UInt32.eq_iff_toNat_eq.2 h)

/-- The block `write(item)` puts the record of a dirty entry at: its new run when it has one,
else the block that `get_free(1)` returns. The block lies in the file or at its end and is no
other entry's nor the live terminator's, and making it the entry's new run leaves one owner for
every block. -/
theorem writeEntry_block {s : Umap K V} (hs : StoreInv P s) {k : K} {c : Control} {v₀ : V}
    (hf : findEntry k s.map = some (c, v₀)) (hb : s.data.count + 2 < 2 ^ 32) (o : UInt64)
    (v : V) :
    ∃ pos free, ((c.newCount = 1 ∧ pos = c.newBlock ∧ free = s.free) ∨
        (c.newCount ≠ 1 ∧ getFree (addFree s.free c.newBlock c.newCount) 1 = some (pos, free))) ∧
      pos.toNat ≤ s.data.count ∧
      FreeShape free (max s.data.count (pos.toNat + 1)) (decide (s.lastf ≠ 0xFFFFFFFF)) ∧
      (∀ e ∈ s.map, e.1 ≠ k → e.2.1.owns pos.toNat = false) ∧ pos.toNat ≠ s.lastf.toNat ∧
      ∀ p < 2 ^ 32 - 1, ownerCount { s with
          free := free
          map := setEntry k { c with order := o, newBlock := pos, newCount := 1 } v s.map } p = 1 ∧
        (¬ IsFree free p → p < max s.data.count (pos.toNat + 1)) := by
  have hmem := mem_of_findEntry hf
  obtain ⟨hnc, hnb, -⟩ := hs.new _ hmem
  by_cases h1 : c.newCount = 1
  · -- the new run is kept
    have hp : c.newBlock.toNat < s.data.count := hnb (by rw [h1]; decide)
    have hlt : c.newBlock.toNat < 2 ^ 32 - 1 := by omega
    have hown : c.owns c.newBlock.toNat = true := by
      simp [Control.owns, h1, inRun_one]
    refine ⟨c.newBlock, s.free, .inl ⟨h1, rfl, rfl⟩, hp.le, hs.free.mono (le_max_left _ _),
      fun e he hk => ?_, (hs.owners.owned hlt hmem hown).2, fun p hp => ?_⟩
    · cases h : e.2.1.owns c.newBlock.toNat
      · rfl
      · exact absurd (congrArg Prod.fst (hs.owners.unique hlt he hmem h hown)) hk
    · have hrun := countP_setEntry_runs (v := v) hs.hash.nodup hf
        (show ({ c with order := o, newBlock := c.newBlock, newCount := 1 } : Control).loadBlock =
          c.loadBlock from rfl) rfl rfl h1.symm p
      refine ⟨?_, fun h => lt_max_of_lt_left ((hs.owners p hp).2 h)⟩
      have := (hs.owners p hp).1
      unfold ownerCount at this ⊢
      dsimp only
      rw [hrun.1, hrun.2]; exact this
  · -- a block is taken from the free map
    have h0 : c.newCount = 0 := (toNat_le_one hnc).resolve_right h1
    obtain ⟨pos, free, hg, hpos, hfree, hiff, -, hshape⟩ := getFree_shape hs.free hb
    have hlt : pos.toNat < 2 ^ 32 - 1 := by omega
    refine ⟨pos, free, .inr ⟨h1, by rw [h0, addFree_zero]; exact hg⟩, hpos, hshape,
      fun e he _ => (hs.owners.free hlt hfree he).1, (hs.owners.free hlt hfree hmem).2,
      fun p hp => ?_⟩
    have hl := countP_setEntry (fun e => inRun e.2.1.loadBlock e.2.1.loadCount p) hs.hash.nodup
      hf { c with order := o, newBlock := pos, newCount := 1 } v
    have hn := countP_setEntry (fun e => inRun e.2.1.newBlock e.2.1.newCount p) hs.hash.nodup
      hf { c with order := o, newBlock := pos, newCount := 1 } v
    simp only [h0, inRun_zero, inRun_one, Bool.toNat_false, Nat.add_zero] at hl hn
    have hown := (hs.owners p hp).1
    have hpos' := (hs.owners pos.toNat hlt).1
    unfold ownerCount at hown hpos' ⊢
    dsimp only at hl hn ⊢
    by_cases hpp : p = pos.toNat
    · subst hpp
      have hnf : ¬ IsFree free pos.toNat := fun h => ((hiff _ (by omega)).1 h).2 rfl
      rw [if_pos hfree] at hpos'
      rw [if_neg hnf]
      simp only [decide_True, Bool.toNat_true] at hn
      exact ⟨by omega, fun _ => by omega⟩
    · have hfp : IsFree free p ↔ IsFree s.free p := by rw [hiff p (by omega)]; simp [hpp]
      simp only [hpp, decide_False, Bool.toNat_false, Nat.add_zero] at hn
      refine ⟨?_, fun h => lt_max_of_lt_left ((hs.owners p hp).2 (mt hfp.2 h))⟩
      by_cases hx : IsFree s.free p
      · rw [if_pos (hfp.2 hx)]; rw [if_pos hx] at hown; omega
      · rw [if_neg (mt hfp.1 hx)]; rw [if_neg hx] at hown; omega

/-- `write(item)` of a dirty entry whose record fits one block keeps the invariant while the orders
stay below `2^32 - 3`: the entry gets the next order and a head that holds its record. -/
theorem storeInv_writeEntry
    (hsave : ∀ k v, 0 < (P.save k v).length ∧ (P.save k v).length ≤ dataSize)
    (hload : ∀ k v, P.load (P.save k v) = (k, v)) {s : Umap K V} (hs : StoreInv P s) {k : K}
    {c : Control} {v : V} (hf : findEntry k s.map = some (c, v)) (hc : c.order = 0)
    (hb : s.order.toNat + 3 < 2 ^ 32) :
    ∃ s' c', writeEntry P s k c v = some s' ∧ StoreInv P s' ∧ s'.map = setEntry k c' v s.map ∧
      c'.order ≠ 0 ∧ s'.order.toNat = s.order.toNat + 1 ∧ s'.flush = s.flush ∧
      s'.lastf = s.lastf := by
  have hmem := mem_of_findEntry hf
  have hcnt := hs.count_le
  have hfl := hs.flush_le
  have hord : (s.order + 1).toNat = s.order.toNat + 1 := toNat_order_succ (by omega)
  obtain ⟨pos, free, hpos, hin, hshape, hother, -, hown⟩ :=
    writeEntry_block P hs hf (by omega) (s.order + 1) v
  have heq := writeEntry_eq P hs.failures hc (blockCount_one (hsave k v)) hpos hin
  have hread := Disk.readBlock_push s.data hin (recordBlock (s.order + 1) (P.save k v) 0)
  have hcount := Disk.count_push s.data pos.toNat (recordBlock (s.order + 1) (P.save k v) 0)
  have hkey : ∀ {j x}, recordOffer P u64Max j
      (some (recordBlock (s.order + 1) (P.save k v) 0)) = some x → x.1 = k := fun hx => by
    rw [recordOffer_recordBlock_key (hsave k v).2 hx, hload]
  have hlt : s.order < s.order + 1 := by rw [UInt64.lt_iff_toNat_lt, hord]; omega
  refine ⟨_, _, heq, ?_, rfl, by simp [UInt64.eq_iff_toNat_eq, hord], hord, rfl, rfl⟩
  -- the heads of the other entries are not the block written
  have head_ne : ∀ e ∈ s.map, e.1 ≠ k → e.2.1.order ≠ 0 → e.2.1.head.toNat ≠ pos.toNat :=
    fun e he hk ho h => by
      have := hother e he hk
      rw [← h, owns_head (hs.record e he ho).1] at this
      cases this
  refine ⟨hashInv_writeEntry P hs.hash hf (by rw [blockCount_one (hsave k v)]; decide) (by omega)
      heq, hs.failures, by dsimp only; rw [hcount]; omega, by dsimp only; rw [hord]; omega,
    fun h => absurd (congrArg UInt64.toNat h) (by dsimp only; rw [hord]; omega),
    by dsimp only; rw [hcount]; exact hshape,
    fun p hp => ⟨(hown p hp).1, by dsimp only; rw [hcount]; exact (hown p hp).2⟩, ?_,
    fun e he => ?_, fun e he => ?_, fun e he ho => ?_, fun e he ho => ?_, fun j sb h => ?_,
    fun e he ho j x hx => ?_, fun j x hx => ?_, fun j sb h hsz => ?_⟩
  · rcases hs.lastf with h | ⟨h1, h2⟩
    · exact .inl h
    · exact .inr ⟨h1, by dsimp only; rw [hcount]; omega⟩
  · dsimp only; rw [hcount]
    rcases mem_setEntry_cases he with rfl | ⟨he, -⟩
    · obtain ⟨h1, h2⟩ := hs.load _ hmem
      dsimp only at h1 h2 ⊢
      exact ⟨h1, fun h => by have := h2 h; omega⟩
    · obtain ⟨h1, h2⟩ := hs.load e he
      exact ⟨h1, fun h => by have := h2 h; omega⟩
  · dsimp only; rw [hcount]
    rcases mem_setEntry_cases he with rfl | ⟨he, -⟩
    · dsimp only
      exact ⟨by decide, fun _ => by omega, fun h => absurd h (by decide)⟩
    · obtain ⟨h1, h2, h3⟩ := hs.new e he
      exact ⟨h1, fun h => by have := h2 h; omega, h3⟩
  · dsimp only; rw [hread]
    rcases mem_setEntry_cases he with rfl | ⟨he, hk⟩
    · dsimp only
      exact ⟨.inl (by decide), by simp [Control.head]⟩
    · obtain ⟨h1, h2⟩ := hs.record e he ho
      exact ⟨h1, by rw [if_neg (head_ne e he hk ho)]; exact h2⟩
  · rcases mem_setEntry_cases he with rfl | ⟨he, -⟩
    · dsimp only
      exact ⟨fun _ => UInt64.lt_iff_toNat_lt.2 (by rw [hord]; omega), fun _ => by decide⟩
    · exact hs.fresh e he ho
  · dsimp only at h ⊢; rw [hread] at h; rw [hord]
    split_ifs at h
    · cases h; simp [hord]
    · have := hs.orders j sb h; omega
  · dsimp only at hx ⊢; rw [hread] at hx
    split_ifs at hx with hj
    · have := hkey hx
      rcases mem_setEntry_cases he with rfl | ⟨-, hk⟩
      · exact .inl (by simp [Control.head, hj])
      · exact absurd this hk
    · rcases mem_setEntry_cases he with rfl | ⟨he, hk⟩
      · right
        cases hr : s.data.readBlock j with
        | none => rw [hr] at hx; cases hx
        | some sb =>
          rw [hr] at hx
          have := hs.orders j sb hr
          rw [recordOffer_order hx, UInt64.lt_iff_toNat_lt]; dsimp only; rw [hord]; omega
      · exact hs.newest e he ho j x hx
  · dsimp only at hx ⊢; rw [hread] at hx; rw [setEntry_keys]
    split_ifs at hx
    · rw [hkey hx]; exact List.mem_map_of_mem _ hmem
    · exact hs.keys j x hx
  · dsimp only at h ⊢; rw [hread] at h
    split_ifs at h
    · cases h; exact absurd hsz (recordBlock_size_ne_zero' _ (hsave k v))
    · exact hs.terms j sb h hsz

/-! ### The destructor's loop -/

/-- An entry whose key `findEntry` finds with an order, or does not find, is not dirty. -/
theorem order_ne_zero_of_findEntry {m : List (K × Control × V)} (hm : (m.map Prod.fst).Nodup)
    {k : K} (hk : ∀ c v, findEntry k m = some (c, v) → c.order ≠ 0) {e : K × Control × V}
    (he : e ∈ m) (h0 : e.2.1.order = 0) : e.1 ≠ k := by
  rintro rfl
  exact hk _ _ ((mem_iff_findEntry hm e).1 he) h0

/-- The loop of the writer's destructor over the keys `ks` keeps the invariant while the orders
stay below `2^32 - 3`. Afterwards the entries of the keys `ks` have orders, and `m_order` has grown
when one of them had none. -/
theorem storeInv_writeDirty
    (hsave : ∀ k v, 0 < (P.save k v).length ∧ (P.save k v).length ≤ dataSize)
    (hload : ∀ k v, P.load (P.save k v) = (k, v)) (ks : List K) :
    ∀ {s : Umap K V}, StoreInv P s → s.order.toNat + ks.length + 3 < 2 ^ 32 →
      ∃ s', writeDirty P ks s = some s' ∧ StoreInv P s' ∧
        s.order.toNat ≤ s'.order.toNat ∧ s'.order.toNat ≤ s.order.toNat + ks.length ∧
        s'.flush = s.flush ∧ s'.lastf = s.lastf ∧ s'.map.map Prod.fst = s.map.map Prod.fst ∧
        (∀ e ∈ s'.map, e.2.1.order = 0 → e.1 ∉ ks ∧ e ∈ s.map) ∧
        ((∃ e ∈ s.map, e.1 ∈ ks ∧ e.2.1.order = 0) → s.order.toNat < s'.order.toNat) := by
  induction ks with
  | nil =>
    intro s hs _
    exact ⟨s, rfl, hs, le_rfl, by simp, rfl, rfl, rfl, fun e he _ => ⟨List.not_mem_nil _, he⟩,
      fun ⟨_, _, h, _⟩ => absurd h (List.not_mem_nil _)⟩
  | cons k ks ih =>
    intro s hs hb
    simp only [List.length_cons] at hb ⊢
    -- the loop goes on from `s` when the entry of `k` is not dirty
    have skip : (∀ c v, findEntry k s.map = some (c, v) → c.order ≠ 0) →
        ∃ s', writeDirty P ks s = some s' ∧ StoreInv P s' ∧
          s.order.toNat ≤ s'.order.toNat ∧ s'.order.toNat ≤ s.order.toNat + (ks.length + 1) ∧
          s'.flush = s.flush ∧ s'.lastf = s.lastf ∧ s'.map.map Prod.fst = s.map.map Prod.fst ∧
          (∀ e ∈ s'.map, e.2.1.order = 0 → e.1 ∉ k :: ks ∧ e ∈ s.map) ∧
          ((∃ e ∈ s.map, e.1 ∈ k :: ks ∧ e.2.1.order = 0) → s.order.toNat < s'.order.toNat) :=
      fun hk => by
        obtain ⟨s', h, hs', h₁, h₂, h₃, h₄, h₅, h₆, h₇⟩ := ih hs (by omega)
        refine ⟨s', h, hs', h₁, by omega, h₃, h₄, h₅, fun e he h0 => ?_, fun ⟨e, he, hek, h0⟩ => ?_⟩
        · obtain ⟨h, he'⟩ := h₆ e he h0
          exact ⟨fun h' => (List.mem_cons.1 h').elim
            (order_ne_zero_of_findEntry hs.hash.nodup hk he' h0) h, he'⟩
        · exact h₇ ⟨e, he, (List.mem_cons.1 hek).resolve_left
            (order_ne_zero_of_findEntry hs.hash.nodup hk he h0), h0⟩
    simp only [writeDirty]
    split
    · rename_i c v hf
      split
      · rename_i hc
        obtain ⟨s₁, c₁, h₁, hs₁, hm₁, ho₁, hn₁, hfl₁, hl₁⟩ :=
          storeInv_writeEntry P hsave hload hs hf hc (by omega)
        obtain ⟨s', h, hs', h₂, h₃, h₄, h₅, h₆, h₇, -⟩ := ih hs₁ (by omega)
        refine ⟨s', by rw [h₁, Option.some_bind, h], hs', by omega, by omega, h₄.trans hfl₁,
          h₅.trans hl₁, by rw [h₆, hm₁, setEntry_keys], fun e he h0 => ?_, fun _ => by omega⟩
        obtain ⟨h, he₁⟩ := h₇ e he h0
        rw [hm₁] at he₁
        rcases mem_setEntry_cases he₁ with rfl | ⟨he₁, hk⟩
        · exact absurd h0 ho₁
        · exact ⟨fun h' => (List.mem_cons.1 h').elim hk h, he₁⟩
      · exact skip fun c' v' h => by rw [hf] at h; cases h; assumption
    · exact skip fun c v h => by rw [‹findEntry k s.map = none›] at h; cases h

end Writer

/-! ### The terminator of `finalize` -/

@[simp] theorem Control.promote_order (c : Control) : c.promote.order = c.order := rfl

@[simp] theorem Control.promote_loadBlock (c : Control) : c.promote.loadBlock = c.newBlock := rfl

@[simp] theorem Control.promote_loadCount (c : Control) : c.promote.loadCount = c.newCount := rfl

@[simp] theorem Control.promote_newBlock (c : Control) : c.promote.newBlock = 0 := rfl

@[simp] theorem Control.promote_newCount (c : Control) : c.promote.newCount = 0 := rfl

theorem Control.promote_head {c : Control} (h : c.newCount ≠ 0) : c.promote.head = c.head := by
  simp [Control.head, h]

/-- Block `p` lies in the loaded run that the last loop of `finalize` frees for the entry `e`, one
with a new run. -/
def freedBy (e : K × Control × V) (p : Nat) : Bool :=
  decide (e.2.1.newCount ≠ 0) && inRun e.2.1.loadBlock e.2.1.loadCount p

/-- The promoted entries hold the new runs as loaded runs and no new run: a block is in a loaded
run afterwards when it was in a new run, or in a loaded run that is not freed. -/
theorem countP_promote [DecidableEq K] (ks : List K) (m : List (K × Control × V)) (F : FreeMap)
    (p : Nat) :
    (promote ks m F).1.countP (fun e => inRun e.2.1.loadBlock e.2.1.loadCount p) +
        m.countP (freedBy · p) =
      m.countP (fun e => inRun e.2.1.loadBlock e.2.1.loadCount p) +
        m.countP (fun e => inRun e.2.1.newBlock e.2.1.newCount p) ∧
    (promote ks m F).1.countP (fun e => inRun e.2.1.newBlock e.2.1.newCount p) = 0 := by
  induction m with
  | nil => exact ⟨rfl, rfl⟩
  | cons e m ih =>
    obtain ⟨ih₁, ih₂⟩ := ih
    simp only [promote, List.map_cons, List.countP_cons] at ih₁ ih₂ ⊢
    by_cases hn : e.2.1.newCount = 0
    · have hfe : freedBy e p = false := by simp [freedBy, hn]
      rw [if_neg (not_not.2 hn), hfe, hn, inRun_zero]
      simp only [Bool.false_eq_true, ↓reduceIte, add_zero]
      exact ⟨by omega, ih₂⟩
    · have hfe : freedBy e p = inRun e.2.1.loadBlock e.2.1.loadCount p := by simp [freedBy, hn]
      rw [if_pos hn, hfe]
      simp only [Control.promote_loadBlock, Control.promote_loadCount, Control.promote_newBlock,
        Control.promote_newCount, inRun_zero, Bool.false_eq_true, ↓reduceIte, add_zero]
      exact ⟨by split_ifs <;> omega, ih₂⟩

/-- One step of the last loop of `finalize`: an entry with a new run frees its loaded run, of one
block at most and in use, while another block stays in use. -/
theorem freeShape_promoteStep {F : FreeMap} {c : Nat} {d : Bool} (hF : FreeShape F c d)
    (hc : c < 2 ^ 32) {e : K × Control × V} (hl : e.2.1.loadCount.toNat ≤ 1)
    (hfree : ∀ p, freedBy e p = true → ¬ IsFree F p) {q : Nat} (hq : q < 2 ^ 32)
    (hqF : ¬ IsFree F q) (hqe : freedBy e q = false) :
    FreeShape (if e.2.1.newCount ≠ 0 then addFree F e.2.1.loadBlock e.2.1.loadCount else F) c d ∧
      ∀ p, IsFree (if e.2.1.newCount ≠ 0 then addFree F e.2.1.loadBlock e.2.1.loadCount else F) p ↔
        IsFree F p ∨ (p < 2 ^ 32 - 1 ∧ freedBy e p = true) := by
  unfold freedBy at hfree hqe ⊢
  by_cases hn : e.2.1.newCount ≠ 0
  · rw [if_pos hn]
    rcases toNat_le_one hl with h0 | h1
    · simp only [h0, addFree_zero, inRun_zero, Bool.and_false]
      exact ⟨hF, fun p => by simp⟩
    · simp only [h1, inRun_one, decide_eq_true hn, Bool.true_and, decide_eq_true_eq,
        decide_eq_false_iff_not] at hfree hqe ⊢
      obtain ⟨hs, hiff⟩ := addFree_shape hF hc (hfree _ rfl) ⟨q, hq, hqF, hqe⟩
      exact ⟨hs, fun p => by rw [hiff, and_comm]⟩
  · rw [if_neg hn]
    exact ⟨hF, fun p => by simp [hn]⟩

/-- The frees of the last loop of `finalize`, over the entries in any order, keep the shape of the
free map and free the loaded runs of the entries with a new run, when these runs have one block at
most, are in use and are not shared, and another block stays in use. -/
theorem freeShape_freeLoaded {c : Nat} {d : Bool} (hc : c < 2 ^ 32) {q : Nat} (hq : q < 2 ^ 32)
    (l : List (K × Control × V)) : ∀ {F : FreeMap}, FreeShape F c d →
      (∀ e ∈ l, e.2.1.loadCount.toNat ≤ 1) → (∀ e ∈ l, ∀ p, freedBy e p = true → ¬ IsFree F p) →
      (∀ p, l.countP (freedBy · p) ≤ 1) → ¬ IsFree F q → (∀ e ∈ l, freedBy e q = false) →
      FreeShape (freeLoaded l F) c d ∧
        ∀ p, IsFree (freeLoaded l F) p ↔
          IsFree F p ∨ (p < 2 ^ 32 - 1 ∧ 0 < l.countP (freedBy · p)) := by
  induction l with
  | nil => exact fun hF _ _ _ _ _ => ⟨hF, fun p => by simp [freeLoaded]⟩
  | cons e l ih =>
    intro F hF hl hfree hone hqF hqe
    have he := List.mem_cons_self e l
    obtain ⟨hF', hiff⟩ := freeShape_promoteStep hF hc (hl e he) (hfree e he) hq hqF (hqe e he)
    have hcount := fun p => List.countP_cons (freedBy · p) e l
    -- a block freed later is not freed by `e` as well
    have hfree' : ∀ e' ∈ l, ∀ p, freedBy e' p = true →
        ¬ IsFree (if e.2.1.newCount ≠ 0 then addFree F e.2.1.loadBlock e.2.1.loadCount else F) p :=
      fun e' he' p hp => by
        rw [hiff]
        rintro (h | ⟨-, h⟩)
        · exact hfree e' (List.mem_cons_of_mem e he') p hp h
        · have := hone p
          have := (List.countP_pos_iff (p := (freedBy · p))).2 ⟨e', he', hp⟩
          rw [hcount, if_pos h] at *
          omega
    obtain ⟨hs, hiff'⟩ := ih hF' (fun e' he' => hl e' (List.mem_cons_of_mem e he')) hfree'
      (fun p => by have := hone p; rw [hcount] at this; omega)
      (by rw [hiff]; rintro (h | ⟨-, h⟩); exacts [hqF h, by rw [hqe e he] at h; cases h])
      (fun e' he' => hqe e' (List.mem_cons_of_mem e he'))
    rw [freeLoaded_cons]
    refine ⟨hs, fun p => ?_⟩
    rw [hiff', hiff, hcount]
    generalize l.countP (freedBy · p) = n
    by_cases hp : p < 2 ^ 32 - 1
    · simp only [hp, true_and]
      cases freedBy e p <;> simp
    · simp only [hp, false_and, or_false]

/-- `finalize` takes the terminator's block from the free map with `get_free(1)` and frees the
previous terminator: before the first terminator, the free map takes the trailing empty run for
block `2^32 - 1`; after it, the previous terminator's block becomes free. -/
theorem freeShape_writeTerminator {s : Umap K V} (hs : StoreInv P s)
    (hb : s.data.count + 2 < 2 ^ 32) :
    ∃ pos free, getFree s.free 1 = some (pos, free) ∧ pos.toNat ≤ s.data.count ∧
      IsFree s.free pos.toNat ∧ pos.toNat ≠ s.lastf.toNat ∧
      FreeShape (addFree free s.lastf 1) (max s.data.count (pos.toNat + 1)) true ∧
      ∀ p < 2 ^ 32, IsFree (addFree free s.lastf 1) p ↔
        (IsFree s.free p ∧ p ≠ pos.toNat) ∨ (p = s.lastf.toNat ∧ p < 2 ^ 32 - 1) := by
  obtain ⟨pos, free, hg, hpos, hfree, hiff, hne, hshape⟩ := getFree_shape hs.free hb
  have hpl : pos.toNat ≠ s.lastf.toNat := fun h => by
    have hc := hs.owners.count_eq (p := pos.toNat) (by omega)
    rw [if_pos hfree, if_pos h] at hc; omega
  refine ⟨pos, free, hg, hpos, hfree, hpl, ?_⟩
  rcases hs.lastf with ⟨-, hl⟩ | ⟨-, hl⟩
  · -- no terminator yet: block `2^32 - 1` goes to the trailing empty run
    rw [hl] at hshape ⊢
    rw [show decide ((0xFFFFFFFF : UInt32) ≠ 0xFFFFFFFF) = false from rfl] at hshape
    obtain ⟨hs', hiff'⟩ := addFree_max_shape hshape hne (by omega)
    refine ⟨hs', fun p hp => ?_⟩
    rw [hiff', hiff p hp, toNat_u32Max]
    exact (or_iff_left (by omega)).symm
  · have hd : decide (s.lastf ≠ 0xFFFFFFFF) = true :=
      decide_eq_true fun h => by rw [h, toNat_u32Max] at hl; omega
    rw [hd] at hshape
    have hlf : ¬ IsFree s.free s.lastf.toNat := fun h => by
      have hc := hs.owners.count_eq (p := s.lastf.toNat) (by omega)
      rw [if_pos h, if_pos rfl] at hc; omega
    obtain ⟨hs', hiff'⟩ := addFree_shape hshape (by omega)
      (fun h => hlf ((hiff _ (by omega)).1 h).1)
      ⟨pos.toNat, by omega, fun h => ((hiff _ (by omega)).1 h).2 rfl, hpl⟩
    exact ⟨hs', fun p hp => by rw [hiff', hiff p hp]⟩

theorem inRun_of_freedBy {e : K × Control × V} {p : Nat} (h : freedBy e p = true) :
    inRun e.2.1.loadBlock e.2.1.loadCount p = true := by
  simp only [freedBy, Bool.and_eq_true] at h; exact h.2

theorem countP_freedBy_le (m : List (K × Control × V)) (p : Nat) :
    m.countP (freedBy · p) ≤ m.countP (fun e => inRun e.2.1.loadBlock e.2.1.loadCount p) :=
  List.countP_mono_left fun _ _ => inRun_of_freedBy

/-- An entry after the last loop of `finalize`: the key, the value, the order and the head stay and
the new run, if any, becomes the loaded run. -/
theorem mem_promote [DecidableEq K] (ks : List K) {m : List (K × Control × V)} {F : FreeMap}
    {e : K × Control × V} (he : e ∈ (promote ks m F).1) : ∃ e₀ ∈ m, e.1 = e₀.1 ∧ e.2.2 = e₀.2.2 ∧
      e.2.1.order = e₀.2.1.order ∧ e.2.1.head = e₀.2.1.head ∧ e.2.1.newCount = 0 ∧
      (e₀.2.1.newCount ≠ 0 → e.2.1.loadBlock = e₀.2.1.newBlock ∧
        e.2.1.loadCount = e₀.2.1.newCount ∧ e.2.1.newBlock = 0) ∧
      (e₀.2.1.newCount = 0 → e = e₀) := by
  obtain ⟨e₀, he₀, rfl⟩ := List.mem_map.1 he
  refine ⟨e₀, he₀, ?_⟩
  by_cases hn : e₀.2.1.newCount ≠ 0
  · rw [if_pos hn]
    exact ⟨rfl, rfl, rfl, Control.promote_head hn, rfl, fun _ => ⟨rfl, rfl, rfl⟩,
      fun h => absurd h hn⟩
  · rw [if_neg hn]
    exact ⟨rfl, rfl, rfl, rfl, not_not.1 hn, fun h => absurd h hn, fun _ => rfl⟩

@[simp] theorem recordOffer_terminator (f : UInt64) (j : Nat) (o : UInt64) (h : Digest) :
    recordOffer P f j (some (terminator o h)) = none := by
  simp [recordOffer, terminator]

/-- An entry with an order is not newer than `m_order`: its head holds its record. -/
theorem StoreInv.order_le {s : Umap K V} (hs : StoreInv P s) {e : K × Control × V}
    (he : e ∈ s.map) (ho : e.2.1.order ≠ 0) : e.2.1.order.toNat ≤ s.order.toNat := by
  simpa using hs.orders _ _ (hs.record e he ho).2

/-- After `finalize` every block keeps one owner: the new terminator's block leaves the free map for
`m_lastf`, the previous terminator's block and the freed loaded runs join the free map, and the new
runs become loaded runs. -/
theorem ownerCount_writeTerminator [DecidableEq K] {ks : List K} {s t : Umap K V}
    (hs : StoreInv P s) {pos : UInt32}
    {F₀ : FreeMap} (hpos : IsFree s.free pos.toNat)
    (hF₀ : ∀ p < 2 ^ 32, IsFree F₀ p ↔
      (IsFree s.free p ∧ p ≠ pos.toNat) ∨ (p = s.lastf.toNat ∧ p < 2 ^ 32 - 1))
    (hF : ∀ p, IsFree (promote ks s.map F₀).2 p ↔
      IsFree F₀ p ∨ (p < 2 ^ 32 - 1 ∧ 0 < s.map.countP (freedBy · p)))
    (hm : t.map = (promote ks s.map F₀).1) (hf : t.free = (promote ks s.map F₀).2)
    (hl : t.lastf = pos) {p : Nat} (hp : p < 2 ^ 32 - 1) : ownerCount t p = 1 := by
  have hc := hs.owners.count_eq hp
  obtain ⟨hL, hN⟩ := countP_promote ks s.map F₀ p
  have hY := countP_freedBy_le s.map p
  have key : IsFree t.free p ↔ (IsFree s.free p ∧ p ≠ pos.toNat) ∨ p = s.lastf.toNat ∨
      0 < s.map.countP (freedBy · p) := by
    rw [hf, hF, hF₀ p (by omega)]; simp only [hp, and_true, true_and, or_assoc]
  unfold ownerCount
  rw [hm, hN, hl]
  by_cases hpp : p = pos.toNat
  · -- the new terminator's block had no other owner
    subst hpp
    rw [if_pos hpos] at hc
    have hnf : ¬ IsFree t.free pos.toNat := fun h => by
      rcases key.1 h with ⟨-, h⟩ | h | h
      · exact h rfl
      · rw [if_pos h] at hc; omega
      · omega
    rw [if_neg hnf, if_pos rfl]; omega
  · rw [if_neg hpp]
    by_cases hX : IsFree s.free p
    · rw [if_pos hX] at hc; rw [if_pos (key.2 (.inl ⟨hX, hpp⟩))]; omega
    · rw [if_neg hX] at hc
      by_cases hT : p = s.lastf.toNat
      · rw [if_pos hT] at hc; rw [if_pos (key.2 (.inr (.inl hT)))]; omega
      · rw [if_neg hT] at hc
        by_cases hY' : 0 < s.map.countP (freedBy · p)
        · rw [if_pos (key.2 (.inr (.inr hY')))]; omega
        · rw [if_neg fun h => (key.1 h).elim (fun h => hX h.1) (fun h => h.elim hT hY')]; omega

/-- The end of `finalize`, in any order of the keys, keeps the invariant while the orders stay below
`2^32 - 3`. It writes the terminator of the next order, carrying the hash, at the block it makes
`m_lastf`, flushes it, and keeps the keys and the orders of the entries. -/
theorem storeInv_writeTerminator [DecidableEq K] {ks : List K} {s : Umap K V} (hs : StoreInv P s)
    (hks : ks.Perm (s.map.map Prod.fst)) (hb : s.order.toNat + 3 < 2 ^ 32) :
    ∃ s', writeTerminator ks s = some s' ∧ StoreInv P s' ∧
      s'.map.map (fun e => (e.1, e.2.1.order)) = s.map.map (fun e => (e.1, e.2.1.order)) ∧
      s'.order.toNat = s.order.toNat + 1 ∧ s'.flush = s'.order ∧
      s'.data.readBlock s'.lastf.toNat = some (terminator s'.flush s'.hash) := by
  have hcnt := hs.count_le
  have hfl := hs.flush_le
  have hord : (s.order + 1).toNat = s.order.toNat + 1 := toNat_order_succ (by omega)
  obtain ⟨pos, free, hg, hpos, hfree, hpl, hF₀s, hF₀⟩ := freeShape_writeTerminator P hs (by omega)
  have hlt : pos.toNat < 2 ^ 32 - 1 := by omega
  -- what the last loop frees is a loaded run of one block of the file, in use
  have freed : ∀ e ∈ s.map, ∀ p, freedBy e p = true →
      p < s.data.count ∧ ¬ IsFree s.free p ∧ p ≠ s.lastf.toNat := fun e he p h => by
    have hin := inRun_of_freedBy h
    obtain ⟨h1, h2⟩ := hs.load e he
    rcases toNat_le_one h1 with h0 | h0
    · rw [h0, inRun_zero] at hin; cases hin
    · rw [h0, inRun_one, decide_eq_true_eq] at hin
      have hp : p < s.data.count := hin ▸ h2 (by rw [h0]; decide)
      exact ⟨hp, hs.owners.owned (by omega) he (by simp [Control.owns, h0, inRun_one, hin])⟩
  -- the loop visits the entries of the map, each once
  have hcnt' : ∀ p, (entriesIn ks s.map).countP (freedBy · p) = s.map.countP (freedBy · p) :=
    fun p => (entriesIn_perm hs.hash.nodup hks).countP_eq _
  obtain ⟨hFs, hF⟩ := freeShape_freeLoaded (q := pos.toNat) (by omega) (by omega)
    (entriesIn ks s.map) hF₀s
    (fun e he => (hs.load e (mem_of_mem_entriesIn he)).1)
    (fun e he p h hF => by
      obtain ⟨h1, h2, h3⟩ := freed e (mem_of_mem_entriesIn he) p h
      rcases (hF₀ p (by omega)).1 hF with ⟨h, -⟩ | ⟨h, -⟩
      exacts [h2 h, h3 h])
    (fun p => by
      rw [hcnt']
      by_cases hp : p < 2 ^ 32 - 1
      · have := hs.owners.count_eq hp
        have := countP_freedBy_le s.map p
        omega
      · rw [List.countP_eq_zero.2 fun e he h => by have := (freed e he p h).1; omega]; omega)
    (by rw [hF₀ _ (by omega)]; rintro (⟨-, h⟩ | ⟨h, -⟩); exacts [h rfl, hpl h])
    (fun e he => Bool.eq_false_iff.2 fun h => (freed e (mem_of_mem_entriesIn he) _ h).2.1 hfree)
  simp only [hcnt'] at hF
  change ∀ p, IsFree (promote ks s.map (addFree free s.lastf 1)).2 p ↔ _ at hF
  have heq := writeTerminator_eq ks hs.failures hg hpos
  have hcount : (({ s.data.flush with unsynced := s.data.flush.unsynced ++
      [(pos.toNat, terminator (s.order + 1) s.hash)] } : Disk).flush).count =
      max s.data.count (pos.toNat + 1) := by
    rw [Disk.count_flush, Disk.count_push, Disk.count_flush]
  have hread : ∀ j, (({ s.data.flush with unsynced := s.data.flush.unsynced ++
      [(pos.toNat, terminator (s.order + 1) s.hash)] } : Disk).flush).readBlock j =
      if j = pos.toNat then some (terminator (s.order + 1) s.hash) else s.data.readBlock j :=
    fun j => by
      rw [Disk.readBlock_flush, Disk.readBlock_push _ (by rw [Disk.count_flush]; exact hpos),
        Disk.readBlock_flush]
  -- the heads of the entries are not the new terminator's block
  have head_ne : ∀ e ∈ s.map, e.2.1.order ≠ 0 → e.2.1.head.toNat ≠ pos.toNat := fun e he ho h => by
    have := (hs.owners.free hlt hfree he).1
    rw [← h, owns_head (hs.record e he ho).1] at this
    cases this
  refine ⟨_, heq, ⟨hashInv_writeTerminator P hs.hash heq, hs.failures,
    by dsimp only; rw [hcount, hord]; omega, le_rfl, fun _ => rfl, ?_,
    fun p hp => ⟨ownerCount_writeTerminator P hs hfree hF₀ hF rfl rfl rfl hp, ?_⟩, ?_,
    fun e he => ?_, fun e he => ?_, fun e he ho => ?_, fun e he ho => ?_, fun j sb h => ?_,
    fun e he ho j x hx => ?_, fun j x hx => ?_, fun j sb h hsz => ?_⟩, ?_, hord, rfl,
    by dsimp only; rw [hread, if_pos rfl]⟩
  · have hd : decide (pos ≠ 0xFFFFFFFF) = true :=
      decide_eq_true fun h => by rw [h, toNat_u32Max] at hlt; omega
    dsimp only; rw [hcount, hd]; exact hFs
  · dsimp only; rw [hcount]
    intro h
    rw [hF, hF₀ p (by omega)] at h
    by_cases hpp : p = pos.toNat
    · omega
    · exact lt_max_of_lt_left ((hs.owners p hp).2 fun h' => h (.inl (.inl ⟨h', hpp⟩)))
  · refine .inr ⟨fun h => ?_, by dsimp only; rw [hcount]; omega⟩
    have := congrArg UInt64.toNat h
    rw [hord] at this; simp at this
  · obtain ⟨e₀, he₀, -, -, -, -, -, hpr, hid⟩ := mem_promote ks (F := addFree free s.lastf 1) he
    dsimp only; rw [hcount]
    by_cases hn : e₀.2.1.newCount = 0
    · rw [hid hn]
      obtain ⟨h1, h2⟩ := hs.load e₀ he₀
      exact ⟨h1, fun h => by have := h2 h; omega⟩
    · obtain ⟨h1, h2, -⟩ := hs.new e₀ he₀
      rw [(hpr hn).1, (hpr hn).2.1]
      exact ⟨h1, fun h => by have := h2 h; omega⟩
  · obtain ⟨e₀, he₀, -, -, -, -, hnc, hpr, hid⟩ := mem_promote ks (F := addFree free s.lastf 1) he
    refine ⟨by rw [hnc]; decide, fun h => absurd hnc h, fun _ => ?_⟩
    by_cases hn : e₀.2.1.newCount = 0
    · rw [hid hn]; exact (hs.new e₀ he₀).2.2 hn
    · exact (hpr hn).2.2
  · obtain ⟨e₀, he₀, hk, hv, ho', hh, -, hpr, hid⟩ :=
      mem_promote ks (F := addFree free s.lastf 1) he
    rw [ho'] at ho ⊢
    obtain ⟨h1, h2⟩ := hs.record e₀ he₀ ho
    refine ⟨?_, by dsimp only; rw [hread, hh, if_neg (head_ne e₀ he₀ ho), hk, hv]; exact h2⟩
    by_cases hn : e₀.2.1.newCount = 0
    · rw [hid hn]; exact h1
    · exact .inr (by rw [(hpr hn).2.1]; exact hn)
  · obtain ⟨e₀, he₀, -, -, ho', -, hnc, -, -⟩ := mem_promote ks (F := addFree free s.lastf 1) he
    rw [ho'] at ho ⊢
    have := StoreInv.order_le P hs he₀ ho
    refine ⟨fun h => absurd hnc h, fun h => absurd h ?_⟩
    dsimp only; rw [UInt64.lt_iff_toNat_lt, hord]; omega
  · dsimp only at h ⊢; rw [hread] at h; rw [hord]
    split_ifs at h
    · cases h; exact hord.le
    · have := hs.orders j sb h; omega
  · obtain ⟨e₀, he₀, hk, -, ho', hh, -, -, -⟩ := mem_promote ks (F := addFree free s.lastf 1) he
    dsimp only at hx ⊢; rw [hread] at hx
    split_ifs at hx
    · simp at hx
    · rw [ho'] at ho ⊢; rw [hh]; rw [hk] at hx
      exact hs.newest e₀ he₀ ho j x hx
  · dsimp only at hx ⊢; rw [hread] at hx; rw [promote_keys]
    split_ifs at hx
    · simp at hx
    · exact hs.keys j x hx
  · dsimp only at h ⊢; rw [hread] at h
    split_ifs at h with hj
    · cases h; exact ⟨le_rfl, fun _ => hj⟩
    · obtain ⟨h1, -⟩ := hs.terms j sb h hsz
      refine ⟨by rw [hord]; omega, fun h' => ?_⟩
      rw [h', hord] at h1; omega
  · simp only [promote, List.map_map]
    exact List.map_congr_left fun e _ => by dsimp only [Function.comp]; split_ifs <;> rfl

/-! ### Writer sessions and actions -/

/-- What holds between two actions of a run: the invariant, every entry written, and, when no
update is newer than the last flush, the terminator at `m_lastf` carrying the hash. -/
structure Settled (s : Umap K V) : Prop where
  inv : StoreInv P s
  written : ∀ e ∈ s.map, e.2.1.order ≠ 0
  clean : s.order = s.flush → s.flush ≠ 0 →
    s.data.readBlock s.lastf.toNat = some (terminator s.flush s.hash)

section Runs

variable [DecidableEq K]

theorem mem_setEntry_self {k : K} {m : List (K × Control × V)} {c : Control} {v₀ : V}
    (hf : findEntry k m = some (c, v₀)) (c' : Control) (v : V) : (k, c', v) ∈ setEntry k c' v m :=
  List.mem_map.2 ⟨_, mem_of_findEntry hf, if_pos rfl⟩

/-- A writer operation leaves the map and the flag, or sets the flag and leaves an entry to
write. -/
theorem run_flag (o : WriterOp K V) (s : Umap K V) (m : Bool) :
    o.run P (s, m) = (s, m) ∨
      ((o.run P (s, m)).2 = true ∧ ∃ e ∈ (o.run P (s, m)).1.map, e.2.1.order = 0) := by
  cases o with
  | index k v =>
    simp only [WriterOp.run]; split
    · exact .inr ⟨rfl, _, mem_setEntry_self ‹_› _ v, dirty_snd_order P _ _⟩
    · exact .inl rfl
  | add modify k v =>
    simp only [WriterOp.run]; split
    · split
      · exact .inr ⟨rfl, _, mem_setEntry_self ‹_› _ _, dirty_snd_order P _ _⟩
      · exact .inl rfl
    · exact .inr ⟨rfl, _, List.mem_append_right _ (List.mem_singleton_self _), rfl⟩
  | get k => exact .inl rfl

/-- The operations of a session keep the invariant and `m_flush`. When they end with the flag
set, an entry is left to write; when they end with it clear, they changed nothing. -/
theorem storeInv_foldl_run (ops : List (WriterOp K V)) : ∀ {s : Umap K V} {m : Bool},
    StoreInv P s → (m = true → ∃ e ∈ s.map, e.2.1.order = 0) →
    StoreInv P (ops.foldl (fun sm op => op.run P sm) (s, m)).1 ∧
      (ops.foldl (fun sm op => op.run P sm) (s, m)).1.flush = s.flush ∧
      ((ops.foldl (fun sm op => op.run P sm) (s, m)).2 = true →
        ∃ e ∈ (ops.foldl (fun sm op => op.run P sm) (s, m)).1.map, e.2.1.order = 0) ∧
      ((ops.foldl (fun sm op => op.run P sm) (s, m)).2 = false →
        m = false ∧ (ops.foldl (fun sm op => op.run P sm) (s, m)).1 = s) := by
  induction ops with
  | nil => exact fun hs hm => ⟨hs, rfl, hm, fun h => ⟨h, rfl⟩⟩
  | cons o ops ih =>
    intro s m hs hm
    rw [List.foldl_cons]
    rcases run_flag P o s m with h | ⟨h1, h2⟩
    · rw [h]; exact ih hs hm
    · have hs' := storeInv_run P o m hs
      have hfl : (o.run P (s, m)).1.flush = s.flush := by
        cases o <;> simp only [WriterOp.run] <;> (repeat' split) <;> rfl
      obtain ⟨hi, hf, hd, hc⟩ := ih (m := true) hs' (fun _ => h2)
      rw [show o.run P (s, m) = ((o.run P (s, m)).1, true) from Prod.ext rfl h1]
      exact ⟨hi, hf.trans hfl, hd, fun h => absurd (hc h).1 nofun⟩

section Settle

variable (hsave : ∀ k v, 0 < (P.save k v).length ∧ (P.save k v).length ≤ dataSize)
  (hload : ∀ k v, P.load (P.save k v) = (k, v))

include hsave hload

/-- `finalize` from a settled state, in any order of the keys, while the orders stay below
`2^32 - 3`, writes every dirty entry and the terminator, and settles again. -/
theorem settled_finalize {ks : List K} {s : Umap K V} (hs : Settled P s)
    (hks : ks.Perm (s.map.map Prod.fst)) (hb : s.order.toNat + s.map.length + 3 < 2 ^ 32) :
    ∃ s', finalize P ks s = some s' ∧ Settled P s' := by
  unfold finalize
  split
  · exact ⟨s, rfl, hs⟩
  · obtain ⟨s₁, h₁, hs₁, -, ho₁, -, -, hk₁, hd₁, -⟩ :=
      storeInv_writeDirty P hsave hload ks hs.inv (by rw [hks.length_eq, List.length_map]; omega)
    rw [hks.length_eq, List.length_map] at ho₁
    obtain ⟨s₂, h₂, hs₂, hm₂, -, -, hr₂⟩ :=
      storeInv_writeTerminator P hs₁ (show ks.Perm (s₁.map.map Prod.fst) by rwa [hk₁]) (by omega)
    refine ⟨s₂, by rw [h₁, Option.some_bind, h₂], hs₂, fun e he h0 => ?_, fun _ _ => hr₂⟩
    -- an entry of order `0` would be one the destructor's loop did not reach
    have : (e.1, e.2.1.order) ∈ s₁.map.map (fun e => (e.1, e.2.1.order)) := by
      rw [← hm₂]; exact List.mem_map_of_mem _ he
    obtain ⟨e₁, he₁, he₁'⟩ := List.mem_map.1 this
    refine (hd₁ e₁ he₁ (by rw [← h0]; exact congrArg Prod.snd he₁')).1 (hks.mem_iff.2 ?_)
    rw [← hk₁]; exact List.mem_map_of_mem _ he₁

/-- A writer session from a settled state, in any iteration order, with room for its orders,
succeeds and settles again. -/
theorem settled_session {it : Umap K V → List K} (hit : IterOrder it) (ops : List (WriterOp K V))
    (flush : Bool) {s : Umap K V} (hs : Settled P s)
    (hb : s.order.toNat + (s.map.length + ops.length) + 3 < 2 ^ 32)
    (hf : flush = true → s.order.toNat + 2 * (s.map.length + ops.length) + 1 + 3 < 2 ^ 32) :
    ∃ s', session P it ops flush s = some s' ∧ Settled P s' := by
  obtain ⟨-, ho, hl⟩ := foldl_run_frame P ops (s, false)
  have H := storeInv_foldl_run P ops (m := false) hs.inv nofun
  dsimp only at ho hl
  unfold session
  dsimp only
  generalize List.foldl (fun sm op => WriterOp.run P op sm) (s, false) ops = sm at ho hl H
  obtain ⟨hinv, hfl, hdirty, hsame⟩ := H
  -- the destructor writes every dirty entry
  obtain ⟨s₁, h₁, hs₁, ho₁, hl₁⟩ : ∃ s₁, (if sm.2 then writeDirty P (it sm.1) sm.1
      else some sm.1) = some s₁ ∧ Settled P s₁ ∧
      s₁.order.toNat ≤ s.order.toNat + (s.map.length + ops.length) ∧
      s₁.map.length ≤ s.map.length + ops.length := by
    cases hm : sm.2
    · rw [(hsame hm).2]; exact ⟨s, rfl, hs, by omega, by omega⟩
    · obtain ⟨s₁, h, hs₁, -, ho₁, hfl₁, -, hk₁, hd₁, hgrow⟩ := storeInv_writeDirty P hsave hload
        (it sm.1) hinv (by rw [(hit _).length_eq, List.length_map, ho]; omega)
      obtain ⟨e, he, h0⟩ := hdirty hm
      have hlt := hgrow ⟨e, he, (hit _).mem_iff.2 (List.mem_map_of_mem _ he), h0⟩
      have hl₁ : s₁.map.length = sm.1.map.length := by simpa using congrArg List.length hk₁
      rw [ho] at hlt ho₁
      rw [(hit _).length_eq, List.length_map] at ho₁
      have := hs.inv.flush_le
      refine ⟨s₁, h, ⟨hs₁, fun e he h0 => (hd₁ e he h0).1 ((hit _).mem_iff.2 ?_), fun h _ => ?_⟩,
        by omega, by omega⟩
      · rw [← hk₁]; exact List.mem_map_of_mem _ he
      · -- the writes moved `m_order` past `m_flush`
        exact absurd (congrArg UInt64.toNat h) (by rw [hfl₁, hfl]; omega)
  rw [h₁, Option.some_bind]
  cases flush
  · exact ⟨s₁, rfl, hs₁⟩
  · exact settled_finalize P hsave hload hs₁ (hit _) (by have := hf rfl; omega)

/-- An action from a settled state, in any iteration order, with room for its orders below
`2^32 - 3`, succeeds and settles again. -/
theorem settled_run (a : Action K V) {it : Umap K V → List K} (hit : IterOrder it) {s : Umap K V}
    (hs : Settled P s) (hb : s.order.toNat + a.room s + 3 < 2 ^ 32) :
    ∃ s', a.run P it s = some s' ∧ Settled P s' := by
  cases a with
  | write ops => exact settled_session P hsave hload hit ops false hs hb nofun
  | flushWith ops =>
    simp only [Action.room] at hb
    exact settled_session P hsave hload hit ops true hs (by omega) fun _ => by omega
  | flush =>
    simp only [Action.room] at hb
    exact settled_finalize P hsave hload hs (hit _) (by omega)

end Settle

/-! ### Fault-free runs -/

/-- The states of fault-free runs: a map opened on an empty file on which no write fails, then
actions, each in any iteration order of `m_map` and with room for its orders below `2^32 - 3`. -/
inductive FaultFree : Umap K V → Prop
  | start {s : Umap K V} : reopen P [] [] = some s → FaultFree s
  | act {s s' : Umap K V} (a : Action K V) {it : Umap K V → List K} : FaultFree s →
      IterOrder it → s.order.toNat + a.room s + 3 < 2 ^ 32 → a.run P it s = some s' →
      FaultFree s'

/-- Opening an empty file gives the fresh map: there is no block to scan, and `finalize` finds
nothing newer than the last flush. -/
theorem reopen_empty : reopen P [] [] = some (Umap.fresh (Disk.ofFile [] [])) := by
  have hzero : (0 : Digest).bytes = List.replicate 64 0 := by decide
  have hpass : reloadPass P { (Umap.fresh (Disk.ofFile [] []) : Umap K V) with flush := u64Max } =
      (Umap.fresh (Disk.ofFile [] []), false) := by
    have hc : (Umap.fresh (Disk.ofFile [] []) : Umap K V).data.count = 0 := rfl
    simp only [reloadPass, scanLoop, selectPass, hzero, u64Max, ↓reduceIte, not_true_eq_false,
      decide_False, hc, Nat.zero_mod]
    rw [show (0 - Nat.toUInt32 0 : UInt32) = 0 from rfl, addFree_zero]
    rfl
  simp only [reopen, init, reload, hpass, Option.bind_some, finalize]
  rfl

omit [DecidableEq K] in
theorem settled_fresh : Settled P (Umap.fresh (Disk.ofFile [] []) : Umap K V) := by
  have hr : ∀ j, (Umap.fresh (Disk.ofFile [] []) : Umap K V).data.readBlock j = none := fun j => by
    simp [Umap.fresh, Disk.readBlock, Disk.blocks, Disk.ofFile]
  refine ⟨⟨⟨List.nodup_nil, rfl⟩, rfl, Nat.le_refl 0, Nat.le_refl 0, fun _ => rfl, .inl ⟨rfl, rfl⟩,
    fun p hp => ⟨?_, fun h => absurd (.inl rfl) h⟩, .inl ⟨rfl, rfl⟩, nofun, nofun, nofun, nofun,
    fun j sb h => ?_, nofun, fun j x h => ?_, fun j sb h => ?_⟩, nofun, fun _ h => absurd rfl h⟩
  · unfold ownerCount
    rw [if_pos (.inl rfl), if_neg (by rw [show (Umap.fresh (Disk.ofFile [] []) : Umap K V).lastf =
      0xFFFFFFFF from rfl, toNat_u32Max]; omega)]
    rfl
  all_goals rw [hr] at h; cases h

theorem settled_of_faultFree
    (hsave : ∀ k v, 0 < (P.save k v).length ∧ (P.save k v).length ≤ dataSize)
    (hload : ∀ k v, P.load (P.save k v) = (k, v)) {s : Umap K V} (h : FaultFree P s) :
    Settled P s := by
  induction h with
  | start h =>
    rw [reopen_empty] at h
    cases h
    exact settled_fresh P
  | act a _ hit hb hr ih =>
    obtain ⟨s', h', hs'⟩ := settled_run P hsave hload a hit ih hb
    rw [hr] at h'
    cases h'
    exact hs'

/-- Over fault-free runs with records of one block, every block below `2^32 - 1` has exactly one
owner, the free map, a run of one entry or the live terminator, and every block in use lies in the
file. -/
theorem blocks_partitioned
    (hsave : ∀ k v, 0 < (P.save k v).length ∧ (P.save k v).length ≤ dataSize)
    (hload : ∀ k v, P.load (P.save k v) = (k, v)) {s : Umap K V} (h : FaultFree P s) :
    BlocksPartitioned s :=
  (settled_of_faultFree P hsave hload h).inv.owners

/-- After a flush of one new key from an empty file, the file holds the record and the terminator,
and every block has one owner. -/
theorem blocks_partitioned_after_flush : ∃ s : Umap UInt8 UInt8, FaultFree byteParams s ∧
    s.data.count = 2 ∧ BlocksPartitioned s := by
  have hr : (Action.run byteParams insertionOrder (.flushWith [.add true 0 1])
      (Umap.fresh (Disk.ofFile [] []))).map (fun s => s.data.count) = some 2 := by decide
  obtain ⟨s, hs, hc⟩ := Option.map_eq_some'.1 hr
  have h : FaultFree byteParams s :=
    .act _ (.start (reopen_empty byteParams)) iterOrder_insertionOrder (by decide) hs
  exact ⟨s, h, hc, blocks_partitioned byteParams (fun _ _ => by simp [byteParams, dataSize])
    (fun _ _ => rfl) h⟩

end Runs

end Todokanai.Ssdb
