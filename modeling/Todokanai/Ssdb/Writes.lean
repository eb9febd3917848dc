import Todokanai.Ssdb.Damage
import Todokanai.Ssdb.FreeTail

/-!
# The writes of the map on a view that does not fail

When no `write_block` fails, a write at a block of the file or at its end succeeds and is read
back, and the writes of `umap` take a simple form: `write(item)` of a dirty entry whose record
fits one data field puts the record at one block, the entry's new run when it has one block and
otherwise the block `get_free(1)` returns; the terminator write of `finalize` puts the terminator
at the block `get_free(1)` returns and promotes the new runs. The owners of a block, counted by
`ownerCount`, change accordingly.

* `Disk.writeBlock_ok`, `Disk.readBlock_push`, `Disk.count_push`: a write that does not fail.
* `writeEntry_eq`, `writeTerminator_eq`: `umap::write` and the end of `umap::finalize`.
* `countP_setEntry`: the runs of the entries after a write.
* `BlocksPartitioned.owned`, `BlocksPartitioned.unique`: a block of a partitioned map has one owner
  only.

Source: `src/src/util/ssdb.hpp`, `umap::write` (lines 307–374) and `umap::finalize` (376–428);
`view::write_block`, `src/src/util/sfs.cpp`.
-/

namespace Todokanai.Ssdb

/-! ### Writes of the view -/

/-- Writing block `i` at or before the end of the blocks `bs` replaces block `i` only. -/
theorem get?_putBlock_eq {bs : List (Option BlockLayout)} {i : Nat} (b : BlockLayout)
    (hi : i ≤ bs.length) (j : Nat) :
    (putBlock bs (i, b)).get? j = if j = i then some (some b) else bs.get? j := by
  split_ifs with hj
  · subst hj; exact get?_putBlock_self b hi
  · rw [List.get?_eq_getElem?, List.get?_eq_getElem?]
    unfold putBlock
    split_ifs with hl
    · exact List.getElem?_set_ne (Ne.symm hj)
    · rw [show i = bs.length by omega, Nat.sub_self, List.replicate_zero, List.append_nil]
      by_cases hjl : j < bs.length
      · exact List.getElem?_append_left hjl
      · rw [List.getElem?_append_right (by omega), List.getElem?_eq_none (by simp; omega),
          List.getElem?_eq_none (by omega)]

namespace Disk

theorem writeBlock_ok {d : Disk} (hf : d.failures = []) {i : Nat} (hi : i ≤ d.count)
    (b : BlockLayout) :
    d.writeBlock i b = (true, { d with unsynced := d.unsynced ++ [(i, b)] }) := by
  unfold writeBlock
  rw [if_neg (by omega), hf]

theorem readBlock_push (d : Disk) {i : Nat} (hi : i ≤ d.count) (b : BlockLayout) (j : Nat) :
    ({ d with unsynced := d.unsynced ++ [(i, b)] } : Disk).readBlock j =
      if j = i then some b else d.readBlock j := by
  have hb : ({ d with unsynced := d.unsynced ++ [(i, b)] } : Disk).blocks =
      putBlock d.blocks (i, b) := by
    simp only [blocks, List.foldl_append, List.foldl_cons, List.foldl_nil]
  simp only [readBlock, hb, get?_putBlock_eq b hi]
  split_ifs <;> rfl

theorem count_push (d : Disk) (i : Nat) (b : BlockLayout) :
    ({ d with unsynced := d.unsynced ++ [(i, b)] } : Disk).count = max d.count (i + 1) := by
  simp only [count, blocks, List.foldl_append, List.foldl_cons, List.foldl_nil]
  exact length_putBlock _ _

@[simp] theorem count_flush (d : Disk) : d.flush.count = d.count := rfl

@[simp] theorem flush_failures (d : Disk) : d.flush.failures = d.failures := rfl

@[simp] theorem flush_unsynced (d : Disk) : d.flush.unsynced = [] := rfl


end Disk

/-! ### Counting -/


/-- Two different entries with the property count twice. -/
theorem two_le_countP {α : Type} {f : α → Bool} {l : List α} {a b : α} (ha : a ∈ l) (hb : b ∈ l)
    (hab : a ≠ b) (hfa : f a = true) (hfb : f b = true) : 2 ≤ l.countP f := by
  rw [List.countP_eq_length_filter]
  have hsub : [a, b].Subperm (l.filter f) :=
    (show [a, b].Nodup by simp [hab]).subperm fun x hx => by
      rcases List.mem_pair.1 hx with rfl | rfl
      · exact List.mem_filter.2 ⟨ha, hfa⟩
      · exact List.mem_filter.2 ⟨hb, hfb⟩
  exact hsub.length_le

/-! ### `umap::write` and `umap::finalize` -/

variable {K V : Type}

/-! ### One owner per block -/

/-- Block `p` lies in the loaded or in the new run of `c`. -/
def Control.owns (c : Control) (p : Nat) : Bool :=
  inRun c.loadBlock c.loadCount p || inRun c.newBlock c.newCount p

section Owners

variable {s : Umap K V} {p : Nat}

/-- The head of an entry with a run of one block at least lies in that run. -/
theorem owns_head {c : Control} (h : c.newCount ≠ 0 ∨ c.loadCount ≠ 0) : c.owns c.head.toNat := by
  have hpos : ∀ n : UInt32, n ≠ 0 → 0 < n.toNat := fun n hn => Nat.pos_of_ne_zero fun h =>
    hn (UInt32.eq_iff_toNat_eq.2 (by rw [h]; rfl))
  unfold Control.owns Control.head inRun
  by_cases hn : c.newCount ≠ 0
  · simp [hn, hpos _ hn]
  · simp [hn, hpos _ (h.resolve_left hn)]

theorem pos_countP_load {e : K × Control × V} (he : e ∈ s.map)
    (h : inRun e.2.1.loadBlock e.2.1.loadCount p = true) :
    0 < s.map.countP (fun e => inRun e.2.1.loadBlock e.2.1.loadCount p) :=
  List.countP_pos_iff.2 ⟨e, he, h⟩

theorem pos_countP_new {e : K × Control × V} (he : e ∈ s.map)
    (h : inRun e.2.1.newBlock e.2.1.newCount p = true) :
    0 < s.map.countP (fun e => inRun e.2.1.newBlock e.2.1.newCount p) :=
  List.countP_pos_iff.2 ⟨e, he, h⟩

theorem BlocksPartitioned.count_eq (h : BlocksPartitioned s) (hp : p < 2 ^ 32 - 1) :
    (if IsFree s.free p then 1 else 0) +
      s.map.countP (fun e => inRun e.2.1.loadBlock e.2.1.loadCount p) +
      s.map.countP (fun e => inRun e.2.1.newBlock e.2.1.newCount p) +
      (if p = s.lastf.toNat then 1 else 0) = 1 :=
  (h p hp).1

/-- A block in a run of an entry is neither free nor the live terminator. -/
theorem BlocksPartitioned.owned (h : BlocksPartitioned s) (hp : p < 2 ^ 32 - 1)
    {e : K × Control × V} (he : e ∈ s.map) (ho : e.2.1.owns p = true) :
    ¬ IsFree s.free p ∧ p ≠ s.lastf.toNat := by
  have hc := h.count_eq hp
  have hpos : 0 < s.map.countP (fun e => inRun e.2.1.loadBlock e.2.1.loadCount p) +
      s.map.countP (fun e => inRun e.2.1.newBlock e.2.1.newCount p) := by
    unfold Control.owns at ho
    rcases Bool.or_eq_true_iff.1 ho with ho | ho
    · have := pos_countP_load he ho; omega
    · have := pos_countP_new he ho; omega
  exact ⟨fun hf => by rw [if_pos hf] at hc; omega, fun hl => by rw [if_pos hl] at hc; omega⟩

/-- Two entries that hold the same block are the same. -/
theorem BlocksPartitioned.unique (h : BlocksPartitioned s) (hp : p < 2 ^ 32 - 1)
    {e e' : K × Control × V} (he : e ∈ s.map) (he' : e' ∈ s.map) (ho : e.2.1.owns p = true)
    (ho' : e'.2.1.owns p = true) : e = e' := by
  by_contra hne
  have hc := h.count_eq hp
  unfold Control.owns at ho ho'
  rcases Bool.or_eq_true_iff.1 ho with ho | ho <;> rcases Bool.or_eq_true_iff.1 ho' with ho' | ho'
  · have := two_le_countP (f := fun e : K × Control × V => inRun e.2.1.loadBlock e.2.1.loadCount p)
      he he' hne ho ho'
    omega
  · have := pos_countP_load he ho; have := pos_countP_new he' ho'; omega
  · have := pos_countP_new he ho; have := pos_countP_load he' ho'; omega
  · have := two_le_countP (f := fun e : K × Control × V => inRun e.2.1.newBlock e.2.1.newCount p)
      he he' hne ho ho'
    omega


/-- A free block has no other owner. -/
theorem BlocksPartitioned.free (h : BlocksPartitioned s) (hp : p < 2 ^ 32 - 1)
    (hf : IsFree s.free p) {e : K × Control × V} (he : e ∈ s.map) :
    e.2.1.owns p = false ∧ p ≠ s.lastf.toNat := by
  cases ho : e.2.1.owns p
  · refine ⟨rfl, fun hl => ?_⟩
    have hc := h.count_eq hp
    rw [if_pos hf, if_pos hl] at hc; omega
  · exact absurd hf (h.owned hp he ho).1

end Owners

variable (P : Params K V)

theorem dirty_of_order_zero (h : Digest) {c : Control} (hc : c.order = 0) :
    dirty P h c = (h, c) := by
  simp [dirty, hc]

/-- The end of `umap::finalize` on a view that does not fail: the terminator of the next order,
carrying the hash, goes to the block that `get_free(1)` returns, the previous terminator and the
loaded runs of the entries with a new run are freed, and `m_flush` becomes the new order. -/
theorem writeTerminator_eq [DecidableEq K] (ks : List K) {s : Umap K V}
    (hf : s.data.failures = []) {pos : UInt32} {free : FreeMap}
    (hg : getFree s.free 1 = some (pos, free)) (hin : pos.toNat ≤ s.data.count) :
    writeTerminator ks s = some { s with
      map := (promote ks s.map (addFree free s.lastf 1)).1
      free := (promote ks s.map (addFree free s.lastf 1)).2
      data := ({ s.data.flush with unsynced := s.data.flush.unsynced ++
        [(pos.toNat, terminator (s.order + 1) s.hash)] } : Disk).flush
      lastf := pos
      order := s.order + 1
      flush := s.order + 1 } := by
  unfold writeTerminator
  dsimp only
  rw [hg, Option.map_some']
  dsimp only
  rw [Disk.writeBlock_ok (by simpa using hf) (by simpa using hin)]
  rfl

variable [DecidableEq K]

/-- `umap::write` of a dirty entry whose record takes one block, on a view that does not fail: the
record goes to block `pos`, the entry's new run when it has one block, else the block that
`get_free(1)` returns after freeing the new run; `m_order` grows by one and the pair of the new
order and `pos` goes into the hash. -/
theorem writeEntry_eq {s : Umap K V} {k : K} {c : Control} {v : V} (hf : s.data.failures = [])
    (hc : c.order = 0) (hcount : blockCount (P.save k v).length = 1) {pos : UInt32} {free : FreeMap}
    (hpos : (c.newCount = 1 ∧ pos = c.newBlock ∧ free = s.free) ∨
      (c.newCount ≠ 1 ∧ getFree (addFree s.free c.newBlock c.newCount) 1 = some (pos, free)))
    (hin : pos.toNat ≤ s.data.count) :
    writeEntry P s k c v = some { s with
      map := setEntry k { c with order := s.order + 1, newBlock := pos, newCount := 1 } v s.map
      free := free
      hash := xorOrder P s.hash (s.order + 1) pos.toUInt64
      order := s.order + 1
      data := { s.data with unsynced :=
        s.data.unsynced ++ [(pos.toNat, recordBlock (s.order + 1) (P.save k v) 0)] } } := by
  have hrun : writeRun pos (s.order + 1) (P.save k v) (List.range (1 : UInt32).toNat) s.data =
      (true, { s.data with unsynced :=
        s.data.unsynced ++ [(pos.toNat, recordBlock (s.order + 1) (P.save k v) 0)] }) := by
    rw [show List.range (1 : UInt32).toNat = [0] from rfl]
    simp only [writeRun]
    rw [show pos + (0 : Nat).toUInt32 = pos from UInt32.eq_iff_toNat_eq.2 (by
      rw [UInt32.toNat_add]; simp [Nat.mod_eq_of_lt pos.toNat_lt]), Disk.writeBlock_ok hf hin]
    rfl
  unfold writeEntry reserve
  simp only [dirty_of_order_zero P _ hc, hcount]
  rcases hpos with ⟨h1, hp, rfl⟩ | ⟨h1, hg⟩
  · rw [if_neg (not_not.2 h1), Option.map_some']
    dsimp only
    rw [← hp, hrun]
    obtain ⟨o, lb, lc, nb, nc⟩ := c
    dsimp only at h1 hp ⊢
    subst h1 hp
    rfl
  · rw [if_pos h1, Option.map_map, hg, Option.map_some']
    dsimp only [Function.comp]
    rw [hrun]
    rfl

/-! ### Counting the runs of the entries -/

theorem countP_setEntry (f : K × Control × V → Bool) {k : K} {c : Control} {v₀ : V}
    {m : List (K × Control × V)} (hk : (m.map Prod.fst).Nodup) (hf : findEntry k m = some (c, v₀))
    (c' : Control) (v : V) :
    (setEntry k c' v m).countP f + (f (k, c, v₀)).toNat = m.countP f + (f (k, c', v)).toNat := by
  induction m with
  | nil => cases hf
  | cons e m ih =>
    rw [List.map_cons, List.nodup_cons] at hk
    rw [findEntry_cons] at hf
    rw [setEntry_cons, List.countP_cons, List.countP_cons]
    by_cases he : e.1 = k
    · rw [if_pos he] at hf ⊢
      obtain ⟨k', c₀, w⟩ := e
      dsimp only at he hf
      subst he
      cases hf
      rw [setEntry_of_not_mem hk.1]
      cases f (k', c, v₀) <;> cases f (k', c', v) <;> simp
    · rw [if_neg he] at hf ⊢
      have := ih hk.2 hf
      omega

/-- An entry of the map after `setEntry k c v` is the new entry of `k`, or an entry of another
key that was there. -/
theorem mem_setEntry_cases {k : K} {c : Control} {v : V} {m : List (K × Control × V)}
    {e : K × Control × V} (h : e ∈ setEntry k c v m) : e = (k, c, v) ∨ (e ∈ m ∧ e.1 ≠ k) := by
  obtain ⟨e₀, he₀, rfl⟩ := List.mem_map.1 h
  by_cases hk : e₀.1 = k
  · exact .inl (if_pos hk)
  · rw [if_neg hk]; exact .inr ⟨he₀, hk⟩


end Todokanai.Ssdb
