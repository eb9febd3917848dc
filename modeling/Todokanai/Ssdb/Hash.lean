import Todokanai.Ssdb.Recovery

/-!
# The combined hash

`m_hash` is meant to be the XOR, over the entries whose order is set, of the HMAC of the order and
of the head block of the entry's run (`combined`). `dirty` takes an entry's pair out and clears its
order; `write(item)` puts the pair of the new order and `new_block` in, and takes it out again when
a block write fails; `finalize` promotes new runs to loaded runs, which keeps every head; and
`reload` adds the pair of each record it keeps, taking out the pair of the older record of the same
key.

The invariant holds in every reachable state, and every terminator `finalize` writes carries it
(`hash_eq_combined_of_reachable`), as long as no order wraps and every record takes `1` to
`4032 · (2^32 - 1)` bytes. A record of `4032 · 2^32` bytes has a block count that `uint32` stores
as `0`: `write` then neither reallocates nor makes its run the head, and adds the pair of
`new_block` while the head stays `load_block` (`huge_record_breaks_hash`).

The invariant is about memory, not the file. A write that fails takes its entry's pair out of the
hash while the entry's loaded run stays committed on disk, so a later terminator leaves out a run
that the next `reload` accepts, and that `reload` ends in the salvage pass
(`failed_rewrite_forces_salvage`).

* `contribution`, `combined`: what the hash should be; `HashInv`: the invariant, with unique keys.
* `ScanInv`: the invariant of `reload`'s scan, whose entries are all loaded.
* `Reachable`: the states from `init` on any file through writer operations, writer destructors and
  `finalize`, each loop over `m_map` in any order of its keys, with room for the orders they take;
  `reachable_session`: sessions stay in it.

Source: `src/src/util/ssdb.hpp`, `xor_order` (lines 121–125), `reload` (237–264), `dirty`
(296–305), `write` (307–374), `finalize` (376–428) and `writer` (542–622).
-/

namespace Todokanai.Ssdb

variable {K V : Type} (P : Params K V)

/-! ### What the hash should be -/

/-- The pair a control contributes to `m_hash`: the HMAC of its order and head block, while its
order is set. -/
def contribution (c : Control) : Digest :=
  if c.order ≠ 0 then P.hmac c.order c.head.toUInt64 else 0

/-- The XOR of the contributions of the entries of `m`. -/
def combined : List (K × Control × V) → Digest
  | [] => 0
  | e :: m => contribution P e.2.1 ^^^ combined m

@[simp] theorem combined_nil : combined P ([] : List (K × Control × V)) = 0 := rfl

@[simp] theorem combined_cons (e : K × Control × V) (m : List (K × Control × V)) :
    combined P (e :: m) = contribution P e.2.1 ^^^ combined P m := rfl

theorem combined_append (m m' : List (K × Control × V)) :
    combined P (m ++ m') = combined P m ^^^ combined P m' := by
  induction m with
  | nil => simp
  | cons e m ih => simp [ih, Digest.xor_assoc]

/-- The invariant of the map: its keys are unique, and `m_hash` is the XOR of the contributions of
its entries. -/
structure HashInv (s : Umap K V) : Prop where
  nodup : (s.map.map Prod.fst).Nodup
  hash_eq : s.hash = combined P s.map

/-! ### `dirty` and `reserve` -/

theorem dirty_fst (h : Digest) (c : Control) : (dirty P h c).1 = h ^^^ contribution P c := by
  unfold dirty contribution xorOrder; split <;> simp_all

theorem contribution_dirty_snd (h : Digest) (c : Control) : contribution P (dirty P h c).2 = 0 := by
  unfold dirty contribution; split <;> simp_all

@[simp] theorem dirty_snd_newCount (h : Digest) (c : Control) :
    (dirty P h c).2.newCount = c.newCount := by
  unfold dirty; split <;> rfl

@[simp] theorem dirty_snd_newBlock (h : Digest) (c : Control) :
    (dirty P h c).2.newBlock = c.newBlock := by
  unfold dirty; split <;> rfl

theorem reserve_spec {free free' : FreeMap} {c c' : Control} {count : UInt32}
    (h : reserve free c count = some (free', c')) : c'.order = c.order ∧ c'.newCount = count := by
  unfold reserve at h
  split at h
  · obtain ⟨r, -, hr⟩ := Option.map_eq_some'.1 h
    cases hr; exact ⟨rfl, rfl⟩
  · cases h; exact ⟨rfl, not_not.1 ‹_›⟩

theorem toNat_order_succ {o : UInt64} (h : o.toNat + 1 < 2 ^ 64) : (o + 1).toNat = o.toNat + 1 :=
  UInt64.toNat_add_of_lt (by simpa using h)

/-! ### `finalize` after its first loop -/

theorem contribution_promote {c : Control} (h : c.newCount ≠ 0) :
    contribution P c.promote = contribution P c := by
  simp [contribution, Control.promote, Control.head, h]

@[simp] theorem freeLoaded_cons (e : K × Control × V) (l : List (K × Control × V)) (F : FreeMap) :
    freeLoaded (e :: l) F =
      freeLoaded l (if e.2.1.newCount ≠ 0 then addFree F e.2.1.loadBlock e.2.1.loadCount else F) :=
  rfl

theorem freeLoaded_of_newCount {l : List (K × Control × V)} (h : ∀ e ∈ l, e.2.1.newCount = 0)
    (F : FreeMap) : freeLoaded l F = F := by
  induction l generalizing F with
  | nil => rfl
  | cons e l ih =>
    rw [freeLoaded_cons, if_neg (not_not.2 (h e (List.mem_cons_self e l)))]
    exact ih (fun e' he' => h e' (List.mem_cons_of_mem e he')) F

section Promote

variable [DecidableEq K]

theorem promote_keys (ks : List K) (m : List (K × Control × V)) (free : FreeMap) :
    (promote ks m free).1.map Prod.fst = m.map Prod.fst := by
  simp only [promote, List.map_map]
  exact List.map_congr_left fun e _ => by dsimp only [Function.comp]; split <;> rfl

/-- Promoting a new run to the loaded run keeps the head, so it keeps every contribution. -/
theorem combined_promote (ks : List K) (m : List (K × Control × V)) (free : FreeMap) :
    combined P (promote ks m free).1 = combined P m := by
  induction m with
  | nil => rfl
  | cons e m ih =>
    simp only [promote, List.map_cons, combined_cons] at ih ⊢
    rw [ih]
    split_ifs with h
    · rw [contribution_promote P h]
    · rfl

theorem writeTerminator_hash {ks : List K} {s s' : Umap K V} (h : writeTerminator ks s = some s') :
    s'.hash = s.hash := by
  unfold writeTerminator at h
  obtain ⟨⟨pos, free⟩, -, rfl⟩ := Option.map_eq_some'.1 h
  dsimp only; split <;> rfl

theorem hashInv_writeTerminator {ks : List K} {s s' : Umap K V} (hs : HashInv P s)
    (h : writeTerminator ks s = some s') : HashInv P s' := by
  unfold writeTerminator at h
  obtain ⟨⟨pos, free⟩, -, rfl⟩ := Option.map_eq_some'.1 h
  dsimp only
  split
  · exact ⟨by simpa [promote_keys] using hs.nodup, by rw [combined_promote]; exact hs.hash_eq⟩
  · exact ⟨hs.nodup, hs.hash_eq⟩

/-- When `finalize` moves `m_flush`, it has written the terminator, carrying the hash, at the block
it makes `m_lastf`, and flushed it. -/
theorem writeTerminator_readBlock {ks : List K} {s s' : Umap K V}
    (h : writeTerminator ks s = some s')
    (hfl : s'.flush ≠ s.flush) :
    s'.data.readBlock s'.lastf.toNat = some (terminator s'.flush s.hash) := by
  unfold writeTerminator at h
  obtain ⟨⟨pos, free⟩, -, rfl⟩ := Option.map_eq_some'.1 h
  revert hfl
  dsimp only
  split
  · intro; rw [Disk.readBlock_flush, Disk.readBlock_writeBlock ‹_›]
  · intro hfl; exact absurd rfl hfl

end Promote

/-! ### What `reload`'s scan keeps -/

@[simp] theorem scanTerminator_u_map (st : ScanState K V) (i : Nat) (sb : BlockLayout) :
    (scanTerminator st i sb).u.map = st.u.map := by
  unfold scanTerminator; dsimp only; split_ifs <;> rfl

@[simp] theorem scanTerminator_u_hash (st : ScanState K V) (i : Nat) (sb : BlockLayout) :
    (scanTerminator st i sb).u.hash = st.u.hash := by
  unfold scanTerminator; dsimp only; split_ifs <;> rfl

@[simp] theorem selectPass_map (st : ScanState K V) : (selectPass st).1.map = st.u.map := by
  unfold selectPass; dsimp only; split_ifs <;> rfl

@[simp] theorem selectPass_hash (st : ScanState K V) : (selectPass st).1.hash = st.u.hash := by
  unfold selectPass; dsimp only; split_ifs <;> rfl

theorem order_ne_zero_of_header {o : UInt64} (h : ¬ 0x7FFFFFFFFFFFFFFF ≤ o - 1) : o ≠ 0 := by
  rintro rfl; exact h (by decide)

theorem size_ne_max_of_header {sz : UInt64} (h : ¬ 0x80000000 ≤ sz) : sz ≠ u64Max := by
  rintro rfl; exact h (by decide)

theorem toUInt64_toUInt32 {n : Nat} (h : n < 2 ^ 32) : n.toUInt32.toUInt64 = n.toUInt64 := by
  rw [UInt64.eq_iff_toNat_eq]; simp; omega

/-- The invariant of `reload`'s scan: the map's invariant, with every entry loaded, so that its
order is set and its head is its loaded run. -/
structure ScanInv (u : Umap K V) extends HashInv P u : Prop where
  loaded : ∀ e ∈ u.map, e.2.1.order ≠ 0 ∧ e.2.1.newCount = 0

theorem ScanInv.of_eq {u u' : Umap K V} (hu : ScanInv P u) (hm : u'.map = u.map)
    (hh : u'.hash = u.hash) : ScanInv P u' :=
  ⟨⟨by rw [hm]; exact hu.nodup, by rw [hm, hh]; exact hu.hash_eq⟩, by rw [hm]; exact hu.loaded⟩

/-- A record of `1` to `4032 · (2^32 - 1)` bytes takes a number of blocks that `uint32` holds and
that is not `0`. -/
theorem blockCount_ne_zero {n : Nat} (h : 0 < n ∧ n ≤ dataSize * (2 ^ 32 - 1)) :
    blockCount n ≠ 0 := by
  unfold blockCount
  rw [Ne, UInt32.eq_iff_toNat_eq]
  simp only [dataSize] at h ⊢
  split_ifs with hr
  · rw [UInt32.toNat_add_of_lt (by simp; omega)]; simp
  · simp; omega

variable [DecidableEq K]

/-! ### Entries of the map -/

@[simp] theorem setEntry_cons (k : K) (c : Control) (v : V) (e : K × Control × V)
    (m : List (K × Control × V)) :
    setEntry k c v (e :: m) = (if e.1 = k then (k, c, v) else e) :: setEntry k c v m := rfl

theorem findEntry_cons (k : K) (e : K × Control × V) (m : List (K × Control × V)) :
    findEntry k (e :: m) = if e.1 = k then some e.2 else findEntry k m := by
  by_cases h : e.1 = k <;> simp [findEntry, List.find?_cons, h]

theorem findEntry_eq_none {k : K} {m : List (K × Control × V)} :
    findEntry k m = none ↔ k ∉ m.map Prod.fst := by
  simp only [findEntry, Option.map_eq_none', List.find?_eq_none, decide_eq_true_eq, List.mem_map,
    not_exists, not_and]

theorem mem_of_findEntry {k : K} {m : List (K × Control × V)} {c : Control} {v : V}
    (h : findEntry k m = some (c, v)) : (k, c, v) ∈ m := by
  induction m with
  | nil => cases h
  | cons e m ih =>
    rw [findEntry_cons] at h
    split at h
    · obtain ⟨a, b⟩ := e; simp_all
    · exact List.mem_cons_of_mem _ (ih h)

@[simp] theorem setEntry_keys (k : K) (c : Control) (v : V) (m : List (K × Control × V)) :
    (setEntry k c v m).map Prod.fst = m.map Prod.fst := by
  induction m with
  | nil => rfl
  | cons e m ih => by_cases h : e.1 = k <;> simp [h, ih]

theorem setEntry_of_not_mem {k : K} {m : List (K × Control × V)} (h : k ∉ m.map Prod.fst)
    (c : Control) (v : V) : setEntry k c v m = m := by
  induction m with
  | nil => rfl
  | cons e m ih =>
    simp only [List.map_cons, List.mem_cons, not_or] at h
    simp [Ne.symm h.1, ih h.2]

theorem mem_setEntry {k : K} {c : Control} {v : V} {m : List (K × Control × V)}
    {e : K × Control × V} (h : e ∈ setEntry k c v m) : e = (k, c, v) ∨ e ∈ m := by
  induction m with
  | nil => cases h
  | cons e' m ih =>
    rw [setEntry_cons, List.mem_cons] at h
    rcases h with rfl | h
    · split <;> simp_all
    · rcases ih h with h | h <;> simp_all

theorem mem_of_mem_entriesIn {ks : List K} {m : List (K × Control × V)} {e : K × Control × V}
    (h : e ∈ entriesIn ks m) : e ∈ m := by
  obtain ⟨k, -, hk⟩ := List.mem_filterMap.1 h
  obtain ⟨⟨c, v⟩, hf, rfl⟩ := Option.map_eq_some'.1 hk
  exact mem_of_findEntry hf

theorem entriesIn_cons_of_not_mem {ks : List K} {e : K × Control × V} {m : List (K × Control × V)}
    (h : e.1 ∉ ks) : entriesIn ks (e :: m) = entriesIn ks m :=
  List.filterMap_congr fun k hk => by
    rw [findEntry_cons, if_neg fun (he : e.1 = k) => h (he ▸ hk)]

theorem entriesIn_keys {m : List (K × Control × V)} (h : (m.map Prod.fst).Nodup) :
    entriesIn (m.map Prod.fst) m = m := by
  induction m with
  | nil => rfl
  | cons e m ih =>
    rw [List.map_cons, List.nodup_cons] at h
    rw [List.map_cons, entriesIn, List.filterMap_cons, findEntry_cons, if_pos rfl]
    show (e.1, e.2) :: entriesIn (m.map Prod.fst) (e :: m) = e :: m
    rw [entriesIn_cons_of_not_mem h.1, ih h.2]

/-- With unique keys, the entries in any order of the keys are the entries of the map. -/
theorem entriesIn_perm {ks : List K} {m : List (K × Control × V)} (h : (m.map Prod.fst).Nodup)
    (hks : ks.Perm (m.map Prod.fst)) : (entriesIn ks m).Perm m := by
  have := hks.filterMap fun k => (findEntry k m).map fun cv => (k, cv)
  rwa [← entriesIn, ← entriesIn, entriesIn_keys h] at this

/-- Replacing the control of the entry of `k` replaces its contribution. -/
theorem combined_setEntry {k : K} {c : Control} {v : V} {m : List (K × Control × V)}
    (hk : (m.map Prod.fst).Nodup) (hf : findEntry k m = some (c, v)) (c' : Control) (v' : V) :
    combined P (setEntry k c' v' m) = combined P m ^^^ contribution P c ^^^ contribution P c' := by
  induction m with
  | nil => cases hf
  | cons e m ih =>
    rw [List.map_cons, List.nodup_cons] at hk
    rw [findEntry_cons] at hf
    by_cases he : e.1 = k
    · simp only [he, if_true, Option.some.injEq] at hf
      subst he
      rw [setEntry_cons, if_pos rfl, combined_cons, combined_cons, setEntry_of_not_mem hk.1, hf,
        Digest.xor_comm (contribution P c), Digest.xor_cancel_right, Digest.xor_comm]
    · rw [if_neg he] at hf
      simp only [setEntry_cons, if_neg he, combined_cons, ih hk.2 hf, Digest.xor_assoc]

/-! ### The writer's operations -/

/-- Dirtying the entry of `k` takes its pair out of the hash, whatever value it then stores. -/
theorem hashInv_dirty {s : Umap K V} (hs : HashInv P s) {k : K} {c : Control} {v : V}
    (hf : findEntry k s.map = some (c, v)) (v' : V) :
    HashInv P
      { s with hash := (dirty P s.hash c).1, map := setEntry k (dirty P s.hash c).2 v' s.map } :=
  ⟨by simpa using hs.nodup, by
    simp only [combined_setEntry P hs.nodup hf, contribution_dirty_snd, Digest.xor_zero, dirty_fst,
      hs.hash_eq]⟩

theorem hashInv_run (o : WriterOp K V) (m : Bool) {s : Umap K V} (hs : HashInv P s) :
    HashInv P (o.run P (s, m)).1 := by
  cases o with
  | index k v =>
    simp only [WriterOp.run]; split
    · exact hashInv_dirty P hs ‹_› v
    · exact hs
  | add modify k v =>
    simp only [WriterOp.run]; split
    · split
      · exact hashInv_dirty P hs ‹_› _
      · exact hs
    · have hk := findEntry_eq_none.1 ‹_›
      refine ⟨?_, ?_⟩
      · simpa [List.nodup_append, hk] using hs.nodup
      · simp [combined_append, hs.hash_eq, contribution, nullControl]
  | get k => exact hs

/-! ### `write(item)` -/

/-- A write keeps the invariant when its record takes a nonzero number of blocks modulo `2^32` and
its order does not wrap: the new pair goes in, and out again when a block write fails. -/
theorem hashInv_writeEntry {s s' : Umap K V} {k : K} {c : Control} {v v₀ : V} (hs : HashInv P s)
    (hf : findEntry k s.map = some (c, v₀)) (hcount : blockCount (P.save k v).length ≠ 0)
    (hord : s.order.toNat + 1 < 2 ^ 64) (h : writeEntry P s k c v = some s') : HashInv P s' := by
  unfold writeEntry at h
  obtain ⟨⟨free, c₁⟩, hr, rfl⟩ := Option.map_eq_some'.1 h
  obtain ⟨ho, hn⟩ := reserve_spec hr
  have ho₁ : c₁.order ≠ 0 := by
    rw [ho, Ne, UInt64.eq_iff_toNat_eq]; simp [toNat_order_succ hord]
  have hc₁ : contribution P c₁ = P.hmac c₁.order c₁.newBlock.toUInt64 := by
    simp [contribution, Control.head, ho₁, hn, hcount]
  dsimp only
  split
  · exact ⟨by simpa using hs.nodup, by
      rw [combined_setEntry P hs.nodup hf, hc₁, xorOrder, dirty_fst, hs.hash_eq]⟩
  · exact ⟨by simpa using hs.nodup, by
      simp [combined_setEntry P hs.nodup hf, contribution, xorOrder, dirty_fst, hs.hash_eq]⟩

/-- A write takes at most one new order. -/
theorem writeEntry_order {s s' : Umap K V} {k : K} {c : Control} {v : V}
    (hord : s.order.toNat + 1 < 2 ^ 64) (h : writeEntry P s k c v = some s') :
    s'.order.toNat ≤ s.order.toNat + 1 := by
  unfold writeEntry at h
  obtain ⟨⟨free, c₁⟩, -, rfl⟩ := Option.map_eq_some'.1 h
  dsimp only
  split
  · rw [toNat_order_succ hord]
  · rw [UInt64.toNat_sub_of_le' (by simp [toNat_order_succ hord]), toNat_order_succ hord]
    simp

/-- A write leaves `m_flush` and the keys. -/
theorem writeEntry_frame {s s' : Umap K V} {k : K} {c : Control} {v : V}
    (h : writeEntry P s k c v = some s') :
    s'.flush = s.flush ∧ s'.map.map Prod.fst = s.map.map Prod.fst := by
  unfold writeEntry at h
  obtain ⟨⟨free, c₁⟩, -, rfl⟩ := Option.map_eq_some'.1 h
  dsimp only; split <;> simp

/-! ### The destructor's loop and `finalize` -/

/-- The loop of the writer's destructor takes at most one order per key, and leaves `m_flush` and
the keys. -/
theorem writeDirty_frame (ks : List K) :
    ∀ {s s' : Umap K V}, s.order.toNat + ks.length < 2 ^ 64 → writeDirty P ks s = some s' →
      s'.order.toNat ≤ s.order.toNat + ks.length ∧ s'.flush = s.flush ∧
        s'.map.map Prod.fst = s.map.map Prod.fst := by
  induction ks with
  | nil => intro s s' _ h; cases h; exact ⟨by simp, rfl, rfl⟩
  | cons k ks ih =>
    intro s s' hg h
    rw [List.length_cons] at hg
    have skip : writeDirty P ks s = some s' → s'.order.toNat ≤ s.order.toNat + (ks.length + 1) ∧
        s'.flush = s.flush ∧ s'.map.map Prod.fst = s.map.map Prod.fst :=
      fun h => by obtain ⟨ho, hfl, hk⟩ := ih (by omega) h; exact ⟨by omega, hfl, hk⟩
    simp only [writeDirty] at h
    split at h
    · split at h
      · obtain ⟨s₁, h₁, h₂⟩ := Option.bind_eq_some.1 h
        have ho₁ := writeEntry_order P (by omega) h₁
        obtain ⟨hfl₁, hk₁⟩ := writeEntry_frame P h₁
        obtain ⟨ho, hfl, hk⟩ := ih (by omega) h₂
        exact ⟨by rw [List.length_cons]; omega, hfl.trans hfl₁, hk.trans hk₁⟩
      · exact skip h
    · exact skip h

/-- The loop of the writer's destructor keeps the invariant while the orders it takes do not
wrap. -/
theorem hashInv_writeDirty (hsave : ∀ k v, blockCount (P.save k v).length ≠ 0) (ks : List K) :
    ∀ {s s' : Umap K V}, HashInv P s → s.order.toNat + ks.length < 2 ^ 64 →
      writeDirty P ks s = some s' → HashInv P s' := by
  induction ks with
  | nil => intro s s' hs _ h; cases h; exact hs
  | cons k ks ih =>
    intro s s' hs hg h
    rw [List.length_cons] at hg
    simp only [writeDirty] at h
    split at h
    · rename_i c v hf
      split at h
      · obtain ⟨s₁, h₁, h₂⟩ := Option.bind_eq_some.1 h
        have ho₁ := writeEntry_order P (by omega) h₁
        exact ih (hashInv_writeEntry P hs hf (hsave k v) (by omega) h₁) (by omega) h₂
      · exact ih hs (by omega) h
    · exact ih hs (by omega) h

/-- `finalize`, in any order of the keys, keeps the invariant while its orders do not wrap, and
the terminator it writes carries the XOR of the contributions of the entries it leaves. -/
theorem hashInv_finalize (hsave : ∀ k v, blockCount (P.save k v).length ≠ 0) {ks : List K}
    {s s' : Umap K V} (hs : HashInv P s) (hg : s.order.toNat + ks.length < 2 ^ 64)
    (h : finalize P ks s = some s') :
    HashInv P s' ∧ (s'.flush ≠ s.flush →
      s'.data.readBlock s'.lastf.toNat = some (terminator s'.flush (combined P s'.map))) := by
  unfold finalize at h
  split at h
  · cases h; exact ⟨hs, fun h => absurd rfl h⟩
  · obtain ⟨s₁, h₁, h₂⟩ := Option.bind_eq_some.1 h
    have hi := hashInv_writeTerminator P (hashInv_writeDirty P hsave _ hs hg h₁) h₂
    refine ⟨hi, fun hne => ?_⟩
    rw [← hi.hash_eq, writeTerminator_hash h₂]
    exact writeTerminator_readBlock h₂ ((writeDirty_frame P _ hg h₁).2.1 ▸ hne)

/-! ### `reload` and `init` -/

/-- Keeping a record, as the first of its key or in place of an older one, keeps the scan's
invariant: the older record's pair leaves the hash with its loaded run, and the new pair comes
in. -/
theorem scanInv_acceptRecord {u : Umap K V} (hu : ScanInv P u) (k : K) (v : V) {o : UInt64}
    (ho : o ≠ 0) {block : Nat} (hb : block < 2 ^ 32) (n : Nat) :
    ScanInv P (acceptRecord P u k v o o block n) := by
  have hload : ∀ c : Control, c.newCount = 0 →
      contribution P (c.loaded o block n) = P.hmac o block.toUInt64 := fun c hc => by
    simp [contribution, Control.loaded, Control.head, hc, ho, toUInt64_toUInt32 hb]
  unfold acceptRecord
  split
  · rename_i hf
    have hk := findEntry_eq_none.1 hf
    refine ⟨⟨by simpa [List.nodup_append, hk] using hu.nodup, ?_⟩, fun e he => ?_⟩
    · simp [combined_append, hload nullControl rfl, xorOrder, hu.hash_eq]
    · rcases List.mem_append.1 he with he | he
      · exact hu.loaded e he
      · simp only [List.mem_singleton] at he; subst he
        simp [Control.loaded, nullControl, ho]
  · rename_i c v₀ hf
    obtain ⟨hco, hcn⟩ : c.order ≠ 0 ∧ c.newCount = 0 := hu.loaded _ (mem_of_findEntry hf)
    have hc : contribution P c = P.hmac c.order c.loadBlock.toUInt64 := by
      simp [contribution, Control.head, hco, hcn]
    split
    · refine ⟨⟨by simpa using hu.nodup, ?_⟩, fun e he => ?_⟩
      · rw [combined_setEntry P hu.nodup hf, hload c hcn, hc]
        simp [xorOrder, hco, hu.hash_eq]
      · rcases mem_setEntry he with rfl | he
        · simp [Control.loaded, ho, hcn]
        · exact hu.loaded e he
    · exact hu.of_eq P rfl rfl

theorem scanInv_scanRecord {d : Disk} {count i : Nat} {st : ScanState K V} {sb : BlockLayout}
    (hu : ScanInv P st.u) (hread : d.readBlock i = some sb) (ho : sb.order ≠ 0)
    (hs : sb.size ≠ u64Max) (hi : i < 2 ^ 32) : ScanInv P (scanRecord P d count st i sb).1.u := by
  unfold scanRecord; dsimp only
  split
  · exact hu.of_eq P rfl rfl
  · rw [reassemble_order count hread hs rfl]
    refine scanInv_acceptRecord P ?_ _ _ ho hi _
    exact hu.of_eq P rfl rfl

/-- One block of the scan keeps its invariant. -/
theorem scanInv_scanBlock {d : Disk} {count i : Nat} {st : ScanState K V} (hu : ScanInv P st.u)
    (hi : i < 2 ^ 32) : ScanInv P (scanBlock P d count st i).1.u := by
  unfold scanBlock; dsimp only
  split
  · exact hu.of_eq P rfl rfl
  · rename_i sb hread
    by_cases h₁ : (0x7FFFFFFFFFFFFFFF : UInt64) ≤ sb.order - 1
    · rw [if_pos h₁]; exact hu.of_eq P rfl rfl
    rw [if_neg h₁]
    by_cases h₂ : (0x80000000 : UInt64) ≤ sb.size
    · rw [if_pos h₂]; exact hu.of_eq P rfl rfl
    rw [if_neg h₂]
    have hu' : ScanInv P (st.noteOrder sb.order).u := hu.of_eq P (by simp) (by simp)
    split_ifs
    · exact hu'.of_eq P rfl rfl
    · exact hu'.of_eq P (by simp) (by simp)
    · exact scanInv_scanRecord P hu' hread (order_ne_zero_of_header h₁)
        (size_ne_max_of_header h₂) hi

theorem scanInv_scanLoop {d : Disk} {count : Nat} (hc : count ≤ 2 ^ 32) (fuel : Nat) :
    ∀ {st : ScanState K V} {i : Nat}, ScanInv P st.u →
      ScanInv P (scanLoop P d count fuel st i).u := by
  induction fuel with
  | zero => intro st i hu; exact hu
  | succ fuel ih =>
    intro st i hu
    simp only [scanLoop]
    split
    · exact ih (scanInv_scanBlock P hu (by omega))
    · exact hu

theorem scanInv_reloadPass (s : Umap K V) : ScanInv P (reloadPass P s).1 := by
  refine (scanInv_scanLoop P (Nat.le_of_lt (Nat.mod_lt _ (by norm_num))) _ ?_).of_eq P
    (selectPass_map _) (selectPass_hash _)
  exact ⟨⟨List.nodup_nil, rfl⟩, fun _ h => absurd h (List.not_mem_nil _)⟩

theorem scanInv_reload {fuel : Nat} {s s' : Umap K V} (h : reload P fuel s = some s') :
    ScanInv P s' := by
  induction fuel generalizing s with
  | zero => cases h
  | succ fuel ih =>
    simp only [reload] at h
    split at h
    · exact ih h
    · cases h; exact scanInv_reloadPass P s

/-- The destructor's loop writes nothing when every order is set. -/
theorem writeDirty_of_loaded {s : Umap K V} (h : ∀ e ∈ s.map, e.2.1.order ≠ 0) (ks : List K) :
    writeDirty P ks s = some s := by
  induction ks with
  | nil => rfl
  | cons k ks ih =>
    simp only [writeDirty]
    split
    · rw [if_neg (h _ (mem_of_findEntry ‹_›))]; exact ih
    · exact ih

/-- `init` establishes the invariant on any file: the map `reload` builds holds it, and the
terminator `init` may write moves no run. -/
theorem hashInv_init {s s' : Umap K V} (h : init P s = some s') : HashInv P s' := by
  obtain ⟨u, hu, h⟩ := Option.bind_eq_some.1 h
  have hi := scanInv_reload P hu
  split at h
  · unfold finalize at h
    split at h
    · cases h; exact hi.toHashInv
    · rw [writeDirty_of_loaded P (fun e he => (hi.loaded e he).1), Option.some_bind] at h
      exact hashInv_writeTerminator P hi.toHashInv h
  · cases h; exact hi.toHashInv

/-- After `reload` every entry is loaded with no new run, so the `finalize` of `init` writes no
entry and frees no run, in whatever order it visits the keys. -/
theorem finalize_after_reload {fuel : Nat} {s u : Umap K V} (hu : reload P fuel s = some u)
    (ks ks' : List K) : finalize P ks u = finalize P ks' u := by
  have hi := scanInv_reload P hu
  have hl : ∀ ks, writeDirty P ks u = some u :=
    writeDirty_of_loaded P fun e he => (hi.loaded e he).1
  have hf : ∀ ks F, freeLoaded (entriesIn ks u.map) F = F := fun _ F =>
    freeLoaded_of_newCount (fun e he => (hi.loaded e (mem_of_mem_entriesIn he)).2) F
  simp only [finalize, hl, Option.some_bind, writeTerminator, promote, hf]

/-! ### Reachable states -/

/-- The states of a map: opened by `init` on any file, then changed by writer operations, writer
destructors and `finalize`, each loop over `m_map` in any order of its keys, as long as a destructor
or a `finalize` starts with room for one more order per entry, so that no order wraps. -/
inductive Reachable : Umap K V → Prop
  | init {file : List (Option BlockLayout)} {failures : List Bool} {s : Umap K V} :
      reopen P file failures = some s → Reachable s
  | op {s : Umap K V} (o : WriterOp K V) (m : Bool) : Reachable s → Reachable (o.run P (s, m)).1
  | destroy {s s' : Umap K V} {ks : List K} : Reachable s → ks.Perm (s.map.map Prod.fst) →
      s.order.toNat + s.map.length < 2 ^ 64 → writeDirty P ks s = some s' → Reachable s'
  | flush {s s' : Umap K V} {ks : List K} : Reachable s → ks.Perm (s.map.map Prod.fst) →
      s.order.toNat + s.map.length < 2 ^ 64 → finalize P ks s = some s' → Reachable s'

omit [DecidableEq K] in
/-- A guard on the entries of the map is one on the keys of an iteration. -/
theorem length_of_perm {s : Umap K V} {ks : List K} {n : Nat} (hks : ks.Perm (s.map.map Prod.fst))
    (hg : s.order.toNat + s.map.length < n) : s.order.toNat + ks.length < n := by
  rwa [hks.length_eq, List.length_map]

theorem hashInv_of_reachable (hsave : ∀ k v, blockCount (P.save k v).length ≠ 0) {s : Umap K V}
    (h : Reachable P s) : HashInv P s := by
  induction h with
  | init h => exact hashInv_init P h
  | op o m _ ih => exact hashInv_run P o m ih
  | destroy _ hks hg h ih => exact hashInv_writeDirty P hsave _ ih (length_of_perm hks hg) h
  | flush _ hks hg h ih => exact (hashInv_finalize P hsave ih (length_of_perm hks hg) h).1

/-- In every reachable state the keys are unique and `m_hash` is the XOR of the contributions of
the entries, and a `finalize`, in any order of the keys, that moves `m_flush` leaves, at the block
of the live terminator, a terminator carrying the XOR of the contributions of the entries it
leaves; provided every record takes `1` to `4032 · (2^32 - 1)` bytes. -/
theorem hash_eq_combined_of_reachable
    (hsave : ∀ k v, 0 < (P.save k v).length ∧ (P.save k v).length ≤ dataSize * (2 ^ 32 - 1))
    {s : Umap K V} (h : Reachable P s) :
    (s.map.map Prod.fst).Nodup ∧ s.hash = combined P s.map ∧
      ∀ (ks : List K) s', ks.Perm (s.map.map Prod.fst) → s.order.toNat + s.map.length < 2 ^ 64 →
        finalize P ks s = some s' → s'.flush ≠ s.flush →
        s'.data.readBlock s'.lastf.toNat = some (terminator s'.flush (combined P s'.map)) := by
  have hcount : ∀ k v, blockCount (P.save k v).length ≠ 0 :=
    fun k v => blockCount_ne_zero (hsave k v)
  have hinv := hashInv_of_reachable P hcount h
  exact ⟨hinv.nodup, hinv.hash_eq,
    fun _ s' hks hg hf => (hashInv_finalize P hcount hinv (length_of_perm hks hg) hf).2⟩

/-! ### Writer sessions -/

theorem run_order (o : WriterOp K V) (sm : Umap K V × Bool) :
    (o.run P sm).1.order = sm.1.order := by
  obtain ⟨s, m⟩ := sm
  cases o with
  | index k v => simp only [WriterOp.run]; split <;> rfl
  | add modify k v => simp only [WriterOp.run]; split; (split <;> rfl); rfl
  | get k => rfl

theorem run_length (o : WriterOp K V) (sm : Umap K V × Bool) :
    (o.run P sm).1.map.length ≤ sm.1.map.length + 1 := by
  obtain ⟨s, m⟩ := sm
  cases o with
  | index k v => simp only [WriterOp.run]; split <;> simp [setEntry]
  | add modify k v => simp only [WriterOp.run]; split; (split <;> simp [setEntry]); simp
  | get k => simp [WriterOp.run]

theorem reachable_foldl_run (ops : List (WriterOp K V)) :
    ∀ {sm : Umap K V × Bool}, Reachable P sm.1 →
      Reachable P (ops.foldl (fun sm op => op.run P sm) sm).1 ∧
        (ops.foldl (fun sm op => op.run P sm) sm).1.order = sm.1.order ∧
        (ops.foldl (fun sm op => op.run P sm) sm).1.map.length ≤ sm.1.map.length + ops.length := by
  induction ops with
  | nil => intro sm h; exact ⟨h, rfl, by simp⟩
  | cons o ops ih =>
    intro sm h
    have h' : Reachable P (o.run P sm).1 := Reachable.op o sm.2 h
    obtain ⟨hr, ho, hl⟩ := ih h'
    have := run_length P o sm
    simp only [List.foldl_cons, List.length_cons]
    exact ⟨hr, ho.trans (run_order P o sm), by omega⟩

/-- A writer session, its operations, its destructor and, for `flush(f)`, `finalize`, in any
iteration order, keeps a state reachable as long as it starts with room for two more orders per
entry and operation. -/
theorem reachable_session {it : Umap K V → List K} (hit : IterOrder it) {s s' : Umap K V}
    (hs : Reachable P s) (ops : List (WriterOp K V)) (flush : Bool)
    (hg : s.order.toNat + 2 * (s.map.length + ops.length) < 2 ^ 64)
    (h : session P it ops flush s = some s') : Reachable P s' := by
  obtain ⟨hr, ho, hl⟩ := reachable_foldl_run P ops (show Reachable P (s, false).1 from hs)
  dsimp only at ho hl
  unfold session at h
  obtain ⟨s₁, h₁, h₂⟩ := Option.bind_eq_some.1 h
  generalize List.foldl (fun sm op => WriterOp.run P op sm) (s, false) ops = sm at hr ho hl h₁
  replace ho : sm.1.order.toNat = s.order.toNat := by rw [ho]
  have hr₁ : Reachable P s₁ ∧ s₁.order.toNat + s₁.map.length < 2 ^ 64 := by
    split at h₁
    · have hg' : sm.1.order.toNat + sm.1.map.length < 2 ^ 64 := by omega
      obtain ⟨ho₁, -, hk₁⟩ := writeDirty_frame P _ (length_of_perm (hit _) hg') h₁
      have hl₁ := congrArg List.length hk₁
      rw [(hit _).length_eq] at ho₁
      simp only [List.length_map] at hl₁ ho₁
      exact ⟨Reachable.destroy hr (hit _) hg' h₁, by omega⟩
    · cases h₁; exact ⟨hr, by omega⟩
  split at h₂
  · exact Reachable.flush hr₁.1 (hit _) hr₁.2 h₂
  · cases h₂; exact hr₁.1

/-- Keys `0` and `1` are added and flushed on a view whose second block write fails: the
destructor writes key `0` and fails on key `1`, with error bit 64, then `finalize` writes key `1`
again and the terminator. -/
theorem hash_eq_combined_after_failed_write :
    ∃ s : Umap UInt8 UInt8, s.map.length = 2 ∧ s.error &&& 64 = 64 ∧
      (∀ k v, 0 < (byteParams.save k v).length ∧
        (byteParams.save k v).length ≤ dataSize * (2 ^ 32 - 1)) ∧
      Reachable byteParams s ∧
      ((s.map.map Prod.fst).Nodup ∧ s.hash = combined byteParams s.map ∧
        ∀ (ks : List UInt8) s', ks.Perm (s.map.map Prod.fst) →
          s.order.toNat + s.map.length < 2 ^ 64 → finalize byteParams ks s = some s' →
          s'.flush ≠ s.flush →
          s'.data.readBlock s'.lastf.toNat =
            some (terminator s'.flush (combined byteParams s'.map))) := by
  have hrun : (session byteParams insertionOrder [.add true 0 1, .add true 1 1] true
      (Umap.fresh (Disk.ofFile [] [false, true]))).map (fun s => (s.map.length, s.error &&& 64)) =
        some (2, 64) := by decide
  obtain ⟨s, h, hs⟩ := Option.map_eq_some'.1 hrun
  obtain ⟨hl, he⟩ := Prod.mk.inj hs
  have hsave : ∀ k v, 0 < (byteParams.save k v).length ∧
      (byteParams.save k v).length ≤ dataSize * (2 ^ 32 - 1) := fun _ _ => by
    simp [byteParams, dataSize]
  have hr : Reachable byteParams s := reachable_session byteParams iterOrder_insertionOrder
    (Reachable.init (by decide : reopen byteParams [] [false, true] =
      some (Umap.fresh (Disk.ofFile [] [false, true])))) _ true (by decide) h
  exact ⟨s, hl, he, hsave, hr, hash_eq_combined_of_reachable byteParams hsave hr⟩

/-! ### A record of `2^32` blocks -/

/-- A write of a record whose block count is a multiple of `2^32`, to an entry with no new run,
writes no block and reallocates nothing: it takes an order and adds the pair of `new_block` to the
hash, while the entry's head stays its loaded run. -/
theorem writeEntry_of_blockCount_zero {s : Umap K V} {k : K} {c : Control} {v : V}
    (hb : blockCount (P.save k v).length = 0) (hn : c.newCount = 0) :
    writeEntry P s k c v = some { s with
      map := setEntry k { (dirty P s.hash c).2 with order := s.order + 1 } v s.map
      hash := xorOrder P (dirty P s.hash c).1 (s.order + 1) c.newBlock.toUInt64
      order := s.order + 1 } := by
  simp [writeEntry, reserve, hb, hn, writeRun]

/-- `umap<std::uint8_t, std::uint8_t>` with a codec that stores the value `1` in `4032 · 2^32` bytes
and any other pair in two, and the HMAC of `byteParams`. -/
def hugeParams : Params UInt8 UInt8 where
  save k v := if v = 1 then List.replicate (dataSize * 2 ^ 32) 0 else [k, v]
  load := byteParams.load
  hmac := byteParams.hmac

/-- Keys `0` and `1` are added and flushed, so that key `1` is loaded at block `1`; then key `1` is
given the value `1`, whose record takes `2^32` blocks. The destructor's write adds the pair of block
`0`, the entry's `new_block`, while the entry's head stays block `1`. -/
theorem huge_record_breaks_hash :
    ∃ s, Reachable hugeParams s ∧ s.hash ≠ combined hugeParams s.map := by
  obtain ⟨s₁, h₁, hmod, hkeys, hf₀, hf₁, hg, hne⟩ : ∃ s₁ : Umap UInt8 UInt8,
      session hugeParams insertionOrder [.add true 0 0, .add true 1 0] true
          (Umap.fresh (Disk.ofFile [] [])) = some s₁ ∧
      ((WriterOp.index 1 1).run hugeParams (s₁, false)).2 = true ∧
      ((WriterOp.index 1 1).run hugeParams (s₁, false)).1.map.map Prod.fst = [0, 1] ∧
      findEntry 0 ((WriterOp.index 1 1).run hugeParams (s₁, false)).1.map =
        some (⟨1, 0, 1, 0, 0⟩, 0) ∧
      findEntry 1 ((WriterOp.index 1 1).run hugeParams (s₁, false)).1.map =
        some (⟨0, 1, 1, 0, 0⟩, 1) ∧
      s₁.order.toNat + 2 * (s₁.map.length + 1) < 2 ^ 64 ∧
      xorOrder hugeParams ((WriterOp.index 1 1).run hugeParams (s₁, false)).1.hash
          (((WriterOp.index 1 1).run hugeParams (s₁, false)).1.order + 1) 0 ≠
        combined hugeParams (setEntry 1
          ⟨((WriterOp.index 1 1).run hugeParams (s₁, false)).1.order + 1, 1, 1, 0, 0⟩ 1
          ((WriterOp.index 1 1).run hugeParams (s₁, false)).1.map) :=
    ⟨(session hugeParams insertionOrder [.add true 0 0, .add true 1 0] true
        (Umap.fresh (Disk.ofFile [] []))).getD (Umap.fresh (Disk.ofFile [] [])),
      by decide, by decide, by decide, by decide, by decide, by decide, by decide⟩
  have hb : blockCount (hugeParams.save 1 1).length = 0 := by
    rw [show (hugeParams.save 1 1).length = dataSize * 2 ^ 32 by simp [hugeParams]]; decide
  have hr₁ : Reachable hugeParams s₁ :=
    reachable_session hugeParams iterOrder_insertionOrder
      (Reachable.init (by rfl : reopen hugeParams [] [] = some (Umap.fresh (Disk.ofFile [] []))))
      _ true (by decide) h₁
  set s₂ := ((WriterOp.index 1 1).run hugeParams (s₁, false)).1
  refine ⟨{ s₂ with map := setEntry 1 ⟨s₂.order + 1, 1, 1, 0, 0⟩ 1 s₂.map,
                    hash := xorOrder hugeParams s₂.hash (s₂.order + 1) 0, order := s₂.order + 1 },
    reachable_session hugeParams iterOrder_insertionOrder hr₁ [.index 1 1] false hg ?_, hne⟩
  simp only [session, List.foldl_cons, List.foldl_nil, hmod, if_true, insertionOrder, hkeys,
    writeDirty, hf₀, hf₁,
    writeEntry_of_blockCount_zero hugeParams hb
      (show (⟨0, 1, 1, 0, 0⟩ : Control).newCount = 0 from rfl),
    if_neg (by decide : ¬ (1 : UInt64) = 0), dirty, ne_eq, not_true_eq_false, if_false,
    Option.some_bind, Bool.false_eq_true, show (0 : UInt32).toUInt64 = 0 from rfl]

/-! ### A failed write and the next `reload` -/

/-- Key `0` is written and flushed. A session then adds key `1` and rewrites key `0`, whose block
write fails; the retry in the next `flush()` fails too, while key `1` and the terminator are
written, so the flush completes. The terminator carries the pair of key `1` only, but the loaded
run of key `0` is still on disk and committed: `init` on the file right after that flush accepts
both records, finds its hash differing from the terminator's in both passes, and salvages with error
bit 32. The write outcomes that make the rewrite of key `0` fail depend on the order in which the
destructor visits the two keys: the model's list order and libstdc++'s, newest first. -/
theorem failed_rewrite_forces_salvage :
    ((reopen byteParams [] [false, false, true, false, true, false]).bind
        (runEvents byteParams insertionOrder
          [.act (.flushWith [.add true 0 1]), .act (.write [.add true 1 1, .index 0 2]),
            .act .flush])).map (fun s => (s.error &&& 64, s.flush == s.order)) = some (64, true) ∧
      ((reopen byteParams [] [false, false, true, false, true, false]).bind
        (runEvents byteParams insertionOrder
          [.act (.flushWith [.add true 0 1]), .act (.write [.add true 1 1, .index 0 2]),
            .act .flush, .crash fun _ => true])).map (fun s => s.error &&& 32) = some 32 ∧
      ((reopen byteParams [] [false, false, false, true, true, false]).bind
        (runEvents byteParams newestFirst
          [.act (.flushWith [.add true 0 1]), .act (.write [.add true 1 1, .index 0 2]),
            .act .flush])).map (fun s => (s.error &&& 64, s.flush == s.order)) = some (64, true) ∧
      ((reopen byteParams [] [false, false, false, true, true, false]).bind
        (runEvents byteParams newestFirst
          [.act (.flushWith [.add true 0 1]), .act (.write [.add true 1 1, .index 0 2]),
            .act .flush, .crash fun _ => true])).map (fun s => s.error &&& 32) = some 32 := by
  refine ⟨?_, ?_, ?_, ?_⟩ <;> decide

end Todokanai.Ssdb
