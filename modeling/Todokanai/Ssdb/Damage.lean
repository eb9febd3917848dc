import Todokanai.Ssdb.Terminators

/-!
# Recovery ignores damage outside the live set

A map that `reload` recovers depends on its live set: the runs of its entries and the terminator
`m_lastf`. Making any other block undecryptable changes no selection of the pass that returned.
That pass keeps, for each key, the first entry offered with the largest order, and dropping an
element that is not selected leaves a fold of `pick` as it was. When `reload` returned from its
first pass, the same pass returns on the damaged file. When it returned from the rollback pass,
the first pass on the damaged file keeps the same terminator, provided the file's valid
terminators have distinct orders. It then rolls back again, to the same map, or it agrees with
that terminator's hash. In the second case its map has the same combined hash as the recovered
one, and, when the HMAC tells these two maps apart (`Separates`: two different sets of (order,
head) pairs have different XORs), the same entries.

* `mem_iff_findEntry`, `combined_eq_of_findEntry`: maps with the same lookups, up to order.
* `keptEntry_damage`, `newestTerminator_damage`, `flushTerminator_damage`: a block that a pass
  does not select can be made undecryptable.
* `flushTerminator_of_distinct`: with distinct terminator orders, the rollback pass keeps the
  terminator of the first pass.
* `reload_damage`: the recovery of a damaged file.
* `init_of_reload_two`: without the salvage pass, `init` returns what `reload` recovered.
* `init_ignores_damage`: the same over every file that a run from an empty file leaves, whose
  terminators `runs_terminatorsDistinct` shows distinct.

Source: `src/src/util/ssdb.hpp`, `umap::reload` (lines 144–293) and `umap::init` (444–461);
`src/src/util/sfs.cpp`, `view::read_block` (lines 207–255).
-/

namespace Todokanai.Ssdb

variable {K V : Type} (P : Params K V)

/-! ### Maps with the same lookups -/

theorem combined_perm {m m' : List (K × Control × V)} (h : m.Perm m') :
    combined P m = combined P m' := by
  induction h with
  | nil => rfl
  | cons e _ ih => rw [combined_cons, combined_cons, ih]
  | swap e e' m =>
    simp only [combined_cons]
    rw [← Digest.xor_assoc, ← Digest.xor_assoc, Digest.xor_comm (contribution P e.2.1)]
  | trans _ _ ih₁ ih₂ => exact ih₁.trans ih₂

/-! ### The hash of a map as a set of pairs -/

/-- The pairs (order, head block) whose HMACs the entries of `m` add to the hash. -/
def pairs (m : List (K × Control × V)) : List (UInt64 × UInt32) :=
  m.map fun e => (e.2.1.order, e.2.1.head)

/-- The XOR of the HMACs of the pairs `s`. -/
def pairHash (s : List (UInt64 × UInt32)) : Digest :=
  s.foldr (fun x h => P.hmac x.1 x.2.toUInt64 ^^^ h) 0

/-- The HMAC tells the maps `m` and `m'` apart: their sets of (order, head) pairs are the same
when the XORs of their HMACs are. -/
def Separates (m m' : List (K × Control × V)) : Prop :=
  pairHash P (pairs m) = pairHash P (pairs m') →
    (∀ x ∈ pairs m, x ∈ pairs m') ∧ ∀ x ∈ pairs m', x ∈ pairs m

instance decidableSeparates (m m' : List (K × Control × V)) : Decidable (Separates P m m') :=
  inferInstanceAs (Decidable (_ → _))

theorem combined_eq_pairHash {m : List (K × Control × V)} (h : ∀ e ∈ m, e.2.1.order ≠ 0) :
    combined P m = pairHash P (pairs m) := by
  induction m with
  | nil => rfl
  | cons e m ih =>
    rw [combined_cons, ih fun e' he' => h e' (List.mem_cons_of_mem _ he')]
    simp only [contribution, h e (List.mem_cons_self _ _), ne_eq, not_false_eq_true, if_true]
    rfl

/-! ### Pass selection -/

@[simp] theorem selectPass_lastf (st : ScanState K V) : (selectPass st).1.lastf = st.u.lastf := by
  unfold selectPass; dsimp only; split_ifs <;> rfl

/-- After the first pass, `m_flush` is the order the pass holds. -/
theorem selectPass_flush_first {st : ScanState K V} (h : st.u.flush = u64Max) :
    (selectPass st).1.flush = st.u.order := by
  unfold selectPass; dsimp only; rw [if_pos h]

/-- A pass other than the salvage pass returns only when the hash agrees with `last_hash`. -/
theorem selectPass_agree {st : ScanState K V} (hs : st.u.flush ≠ u64Minus2)
    (h : (selectPass st).2 = false) : st.u.hash.bytes = st.lastHash := by
  unfold selectPass at h; dsimp only at h
  by_cases h₁ : st.u.flush = u64Max
  · rw [if_pos h₁] at h; simpa using h
  · rw [if_neg h₁, if_neg hs] at h
    by_contra hne
    rw [if_pos hne] at h
    cases h

/-- A pass that returns, other than the salvage pass, sets `m_flush` to its `m_order`. -/
theorem selectPass_flush_order {st : ScanState K V} (hs : st.u.flush ≠ u64Minus2)
    (h : (selectPass st).2 = false) : (selectPass st).1.flush = (selectPass st).1.order := by
  unfold selectPass at h ⊢; dsimp only at h ⊢
  by_cases h₁ : st.u.flush = u64Max
  · rw [if_pos h₁]
  · rw [if_neg h₁, if_neg hs] at h ⊢
    by_cases h₂ : st.u.hash.bytes = st.lastHash
    · rw [if_neg (not_not.2 h₂)]
    · rw [if_pos h₂] at h; cases h

variable [DecidableEq K]

/-- With unique keys, an entry is a member exactly when the lookup of its key finds it. -/
theorem mem_iff_findEntry {m : List (K × Control × V)} (hm : (m.map Prod.fst).Nodup)
    (e : K × Control × V) : e ∈ m ↔ findEntry e.1 m = some e.2 := by
  refine ⟨fun he => ?_, fun h => mem_of_findEntry h⟩
  induction m with
  | nil => cases he
  | cons e' m ih =>
    rw [List.map_cons, List.nodup_cons] at hm
    rw [findEntry_cons]
    rcases List.mem_cons.1 he with rfl | he
    · rw [if_pos rfl]
    · rw [if_neg (fun h => hm.1 (by rw [h]; exact List.mem_map_of_mem _ he)), ih hm.2 he]

/-- Two maps with unique keys and the same lookups have the same combined hash. -/
theorem combined_eq_of_findEntry {m m' : List (K × Control × V)} (hm : (m.map Prod.fst).Nodup)
    (hm' : (m'.map Prod.fst).Nodup) (h : ∀ k, findEntry k m = findEntry k m') :
    combined P m = combined P m' :=
  combined_perm P ((List.perm_ext_iff_of_nodup (List.Nodup.of_map _ hm)
    (List.Nodup.of_map _ hm')).2 fun e => by rw [mem_iff_findEntry hm, mem_iff_findEntry hm', h])

/-! ### Dropping a block that the pass does not select -/

theorem getLast?_append_erase {α : Type} (l₁ l₂ : List α) (x : α)
    (h : (l₁ ++ x :: l₂).getLast? ≠ some x) : (l₁ ++ l₂).getLast? = (l₁ ++ x :: l₂).getLast? := by
  rcases List.eq_nil_or_concat l₂ with rfl | ⟨l, y, rfl⟩
  · exact absurd (List.getLast?_concat l₁) h
  · simp [List.getLast?_append, List.getLast?_cons]

section Removal

variable {f : UInt64} (pre post : List (Nat × Option BlockLayout)) {b : Nat}
  {ob : Option BlockLayout}

/-- Making block `b` undecryptable leaves the entry kept for `k` when it is not the one that
block `b` offers. -/
theorem keptEntry_damage (k : K)
    (hlive : ∀ x, keptEntry P f k (pre ++ (b, ob) :: post) = some x →
      x.1.loadBlock ≠ b.toUInt32) :
    keptEntry P f k (pre ++ (b, none) :: post) = keptEntry P f k (pre ++ (b, ob) :: post) := by
  revert hlive
  simp only [keptEntry, entriesOf, List.filterMap_append, List.filterMap_cons, recordOffer_none,
    Option.none_bind]
  split
  · exact fun _ => rfl
  · rename_i y hy
    intro hlive
    refine foldl_pick_erase _ _ _ y fun h => hlive y h ?_
    obtain ⟨e, he, hey⟩ := Option.bind_eq_some.1 hy
    split_ifs at hey
    cases hey
    exact congrArg Control.loadBlock (recordOffer_control P he).2

/-- Making block `b` undecryptable leaves the terminator the first pass keeps when it is not at
block `b`. -/
theorem newestTerminator_damage
    (hlive : ∀ t, newestTerminator (pre ++ (b, ob) :: post) = some t → t.1 ≠ b) :
    newestTerminator (pre ++ (b, none) :: post) = newestTerminator (pre ++ (b, ob) :: post) := by
  revert hlive
  simp only [newestTerminator, terminators, List.filterMap_append, List.filterMap_cons,
    termOffer_none, Option.map_none']
  split
  · exact fun _ => rfl
  · rename_i t ht
    intro hlive
    refine foldl_pick_erase _ _ _ t fun h => hlive t h ?_
    obtain ⟨sb, -, rfl⟩ := Option.map_eq_some'.1 ht
    rfl

/-- Making block `b` undecryptable leaves the terminator a later pass keeps when it is not at
block `b`. -/
theorem flushTerminator_damage
    (hlive : ∀ t, flushTerminator f (pre ++ (b, ob) :: post) = some t → t.1 ≠ b) :
    flushTerminator f (pre ++ (b, none) :: post) = flushTerminator f (pre ++ (b, ob) :: post) := by
  revert hlive
  simp only [flushTerminator, terminators, List.filterMap_append, List.filterMap_cons,
    termOffer_none, Option.map_none', List.filter_append]
  split
  · exact fun _ => rfl
  · rename_i t ht
    rw [List.filter_cons]
    split
    · intro hlive
      refine getLast?_append_erase _ _ t fun h => hlive t h ?_
      obtain ⟨sb, -, rfl⟩ := Option.map_eq_some'.1 ht
      rfl
    · exact fun _ => rfl

end Removal

/-! ### Two scans that select the same -/

/-- `st'` selects what `st` selects: the same entry for each key, the same hash and terminator,
and in the first pass the same order. -/
structure SameSelection (st st' : ScanState K V) : Prop where
  entry : ∀ k, findEntry k st'.u.map = findEntry k st.u.map
  hash : st'.u.hash = st.u.hash
  flush : st'.u.flush = st.u.flush
  lastf : st'.u.lastf = st.u.lastf
  lastHash : st'.lastHash = st.lastHash
  order : st.u.flush = u64Max → st'.u.order = st.u.order

variable {P}

/-- Two scans of a pass whose blocks offer the same selections select the same. -/
theorem Kept.same {f : UInt64} {bs bs' : List (Nat × Option BlockLayout)} {st st' : ScanState K V}
    (hk : Kept P f bs st) (hk' : Kept P f bs' st')
    (he : ∀ k, keptEntry P f k bs' = keptEntry P f k bs)
    (hn : f = u64Max → newestTerminator bs' = newestTerminator bs)
    (hl : f ≠ u64Max → flushTerminator f bs' = flushTerminator f bs) : SameSelection st st' := by
  have entry : ∀ k, findEntry k st'.u.map = findEntry k st.u.map := fun k => by
    rw [hk'.entry, hk.entry, he]
  have hterm : st'.u.lastf = st.u.lastf ∧ st'.lastHash = st.lastHash ∧
      (f = u64Max → st'.u.order = st.u.order) := by
    by_cases hf : f = u64Max
    · have h := (hk'.first hf).trans ((congrArg keptTerminator (hn hf)).trans (hk.first hf).symm)
      simp only [Prod.mk.injEq] at h
      exact ⟨h.2.1, h.2.2, fun _ => h.1⟩
    · have h := (hk'.later hf).trans
        ((congrArg (fun t => (keptTerminator t).2) (hl hf)).trans (hk.later hf).symm)
      simp only [Prod.mk.injEq] at h
      exact ⟨h.1, h.2, fun h' => absurd h' hf⟩
  refine ⟨entry, ?_, hk'.flush.trans hk.flush.symm, hterm.1, hterm.2.1,
    fun hf => hterm.2.2 (hk.flush.symm.trans hf)⟩
  rw [hk'.inv.hash_eq, hk.inv.hash_eq]
  exact combined_eq_of_findEntry P hk'.inv.nodup hk.inv.nodup entry

/-- Scans that select the same end their pass alike: the same decision to call `reload` again,
and after the first pass the same `m_flush`. -/
theorem SameSelection.selectPass {st st' : ScanState K V} (h : SameSelection st st') :
    (selectPass st').2 = (selectPass st).2 ∧
      (st.u.flush = u64Max → (selectPass st').1.flush = (selectPass st).1.flush) := by
  unfold Todokanai.Ssdb.selectPass; dsimp only
  rw [h.flush, h.hash, h.lastHash]
  refine ⟨by split_ifs <;> rfl, fun hf => ?_⟩
  rw [if_pos hf, if_pos hf]
  exact h.order hf

/-! ### Distinct terminators -/

theorem getLast?_eq_of_forall {α : Type} {l : List α} {x : α} (hx : x ∈ l) (h : ∀ y ∈ l, y = x) :
    l.getLast? = some x := by
  rw [List.getLast?_eq_getLast l (List.ne_nil_of_mem hx)]
  exact congrArg some (h _ (List.getLast_mem _))

/-- With distinct terminator orders, a pass whose `m_flush` is the order that the first pass keeps
holds the first pass's terminator. -/
theorem flushTerminator_of_distinct {bs : List (Nat × Option BlockLayout)}
    (hd : TerminatorsDistinct bs) :
    flushTerminator (keptTerminator (newestTerminator bs)).1 bs = newestTerminator bs := by
  unfold newestTerminator
  cases hn : (terminators u64Max bs).foldl (pick fun t => t.2.order.toNat) none with
  | none =>
    have hnil := (foldl_pick_eq_none _ _ _ hn).2
    have hnil' : terminators (keptTerminator none).1 bs = [] :=
      List.eq_nil_iff_forall_not_mem.2 fun t ht => by
        obtain ⟨ob, hb, ho⟩ := mem_terminators.1 ht
        exact List.not_mem_nil t (hnil ▸ mem_terminators.2 ⟨ob, hb, termOffer_max ho⟩)
    rw [flushTerminator, hnil']
    rfl
  | some t =>
    have ht : t ∈ terminators u64Max bs := (foldl_pick_some _ _ none hn).1.resolve_left nofun
    obtain ⟨ob, hb, ho⟩ := mem_terminators.1 ht
    obtain ⟨rfl, ⟨h₁, h₂, -⟩, h₃⟩ := termOffer_eq_some ho
    have ht' : t ∈ terminators t.2.order bs :=
      mem_terminators.2 ⟨some t.2, hb, by simp [termOffer, BlockLayout.Admitted, h₁, h₂, h₃]⟩
    refine getLast?_eq_of_forall (List.mem_filter.2 ⟨ht', decide_eq_true rfl⟩) fun y hy => ?_
    obtain ⟨hy, hyo⟩ := List.mem_filter.1 hy
    obtain ⟨ob', hb', ho'⟩ := mem_terminators.1 hy
    exact hd y (mem_terminators.2 ⟨ob', hb', termOffer_max ho'⟩) t ht (by simpa using hyo)

/-! ### Entries determined by the hash -/

/-- The entries a pass over the file `F` holds are the records offered by the blocks of `F` at their
loaded runs. -/
theorem Kept.mem_map {f : UInt64} {F : List (Option BlockLayout)} {fs : List Bool}
    {st : ScanState K V} (hk : Kept P f (scanned (Disk.ofFile F fs)) st) {e : K × Control × V}
    (he : e ∈ st.u.map) : ∃ sb, F.get? e.2.1.loadBlock.toNat = some (some sb) ∧
      recordOffer P f e.2.1.loadBlock.toNat (some sb) = some e := by
  have h := (mem_iff_findEntry hk.inv.nodup e).1 he
  rw [hk.entry] at h
  obtain ⟨b, hb, hr⟩ := keptEntry_offered P h
  obtain ⟨j, hj, rfl⟩ := List.mem_map.1 hb
  have hc : e.2.1 = nullControl.loaded e.2.1.order j 1 := (recordOffer_control P hr).2
  have hj' : e.2.1.loadBlock.toNat = j := by
    rw [hc]
    show (j.toUInt32).toNat = j
    rw [Nat.toNat_toUInt32, Nat.mod_eq_of_lt
      ((List.mem_range.1 hj).trans (Nat.mod_lt _ (by norm_num)))]
  rw [hj']
  cases hread : (Disk.ofFile F fs).readBlock j with
  | none => rw [hread] at hr; cases hr
  | some sb =>
    rw [hread] at hr
    exact ⟨sb, Option.join_eq_some.1 hread, hr⟩

/-- Two scans over files that agree wherever the second has a block hold the same entries when
their hashes are equal and the HMAC tells their maps apart. -/
theorem Kept.entries_of_hash {f f' : UInt64} {F F' : List (Option BlockLayout)} {fs : List Bool}
    {st st' : ScanState K V} (hk : Kept P f (scanned (Disk.ofFile F fs)) st)
    (hk' : Kept P f' (scanned (Disk.ofFile F' fs)) st')
    (hF : ∀ j sb, F'.get? j = some (some sb) → F.get? j = some (some sb))
    (hsep : Separates P st'.u.map st.u.map) (hh : st'.u.hash = st.u.hash) :
    ∀ k, findEntry k st'.u.map = findEntry k st.u.map := by
  -- every entry of either map is the record of the block of `F` at its head
  have origin : ∀ e ∈ st.u.map ++ st'.u.map, e.2.1.head = e.2.1.loadBlock ∧
      ∃ sb g, F.get? e.2.1.loadBlock.toNat = some (some sb) ∧
        recordOffer P g e.2.1.loadBlock.toNat (some sb) = some e := fun e he => by
    rcases List.mem_append.1 he with he | he
    · obtain ⟨sb, hF', hr⟩ := hk.mem_map he
      exact ⟨by simp [Control.head, (hk.inv.loaded e he).2], sb, f, hF', hr⟩
    · obtain ⟨sb, hF', hr⟩ := hk'.mem_map he
      exact ⟨by simp [Control.head, (hk'.inv.loaded e he).2], sb, f', hF _ _ hF', hr⟩
  have inj : ∀ e ∈ st.u.map ++ st'.u.map, ∀ e' ∈ st.u.map ++ st'.u.map,
      e.2.1.head = e'.2.1.head → e = e' := fun e he e' he' hh => by
    obtain ⟨hhe, sb, g, hF₁, hr⟩ := origin e he
    obtain ⟨hhe', sb', g', hF₂, hr'⟩ := origin e' he'
    rw [hhe, hhe'] at hh
    rw [hh, hF₂] at hF₁
    cases hF₁
    exact recordOffer_inj hr (hh ▸ hr')
  have hpairs := hsep (by
    rw [← combined_eq_pairHash P fun e he => (hk'.inv.loaded e he).1,
      ← combined_eq_pairHash P fun e he => (hk.inv.loaded e he).1, ← hk'.inv.hash_eq,
      ← hk.inv.hash_eq, hh])
  -- so the two maps have the same members
  have mem : ∀ e, e ∈ st'.u.map ↔ e ∈ st.u.map := fun e => by
    constructor
    · intro he
      obtain ⟨e', he', hpe⟩ := List.mem_map.1 (hpairs.1 _ (List.mem_map_of_mem _ he))
      rw [← inj e' (List.mem_append_left _ he') e (List.mem_append_right _ he) (Prod.mk.inj hpe).2]
      exact he'
    · intro he
      obtain ⟨e', he', hpe⟩ := List.mem_map.1 (hpairs.2 _ (List.mem_map_of_mem _ he))
      rw [← inj e' (List.mem_append_right _ he') e (List.mem_append_left _ he) (Prod.mk.inj hpe).2]
      exact he'
  intro k
  cases h : findEntry k st.u.map with
  | some x =>
    exact (mem_iff_findEntry hk'.inv.nodup (k, x)).1
      ((mem _).2 ((mem_iff_findEntry hk.inv.nodup (k, x)).2 h))
  | none =>
    cases h' : findEntry k st'.u.map with
    | none => rfl
    | some x =>
      have := (mem_iff_findEntry hk.inv.nodup (k, x)).1
        ((mem _).1 ((mem_iff_findEntry hk'.inv.nodup (k, x)).2 h'))
      rw [h] at this
      cases this

/-! ### A damaged file -/

theorem readBlock_damage {F : List (Option BlockLayout)} {fs : List Bool} {b j : Nat}
    (h : j ≠ b) : (Disk.ofFile (F.set b none) fs).readBlock j = (Disk.ofFile F fs).readBlock j := by
  simp only [Disk.readBlock, Disk.blocks, Disk.ofFile, List.foldl_nil, List.get?_eq_getElem?,
    List.getElem?_set_ne (Ne.symm h)]

theorem get?_damage {F : List (Option BlockLayout)} {b j : Nat} {sb : BlockLayout}
    (h : (F.set b none).get? j = some (some sb)) : F.get? j = some (some sb) := by
  rw [List.get?_eq_getElem?] at h ⊢
  by_cases hj : j = b
  · subst hj
    simp [List.getElem?_set] at h
  · rwa [List.getElem?_set_ne (Ne.symm hj)] at h

/-- The blocks a pass reads from the file `F` with block `b` made undecryptable: those it reads
from `F`, with nothing at `b`. -/
theorem scanned_damage (F : List (Option BlockLayout)) (fs : List Bool) (b : Nat) :
    scanned (Disk.ofFile (F.set b none) fs) = scanned (Disk.ofFile F fs) ∨ b < 2 ^ 32 ∧
      ∃ pre post, scanned (Disk.ofFile F fs) = pre ++ (b, (Disk.ofFile F fs).readBlock b) :: post ∧
        scanned (Disk.ofFile (F.set b none) fs) = pre ++ (b, none) :: post := by
  have hcount : (Disk.ofFile (F.set b none) fs).count = (Disk.ofFile F fs).count :=
    List.length_set _ _ _
  unfold scanned
  rw [hcount]
  generalize hn : (Disk.ofFile F fs).count % 2 ^ 32 = n
  have hnF : n ≤ F.length := hn ▸ Nat.mod_le _ _
  by_cases hb : b < n
  · have hsplit : List.range n = List.range b ++ b :: List.range' (b + 1) (n - (b + 1)) := by
      have h := List.range'_append 0 b (n - b) 1
      rw [Nat.one_mul, Nat.zero_add, show n - b + b = n by omega] at h
      rw [List.range_eq_range', List.range_eq_range', ← h,
        show n - b = n - (b + 1) + 1 by omega, List.range'_succ]
    refine .inr ⟨hb.trans_le (hn ▸ (Nat.mod_lt _ (by norm_num)).le),
      (List.range b).map fun i => (i, (Disk.ofFile F fs).readBlock i),
      (List.range' (b + 1) (n - (b + 1))).map fun i => (i, (Disk.ofFile F fs).readBlock i), ?_, ?_⟩
    · rw [hsplit, List.map_append, List.map_cons]
    · rw [hsplit, List.map_append, List.map_cons]
      congr 1
      · exact List.map_congr_left fun i hi => by
          rw [readBlock_damage (Nat.ne_of_lt (List.mem_range.1 hi))]
      · congr 1
        · show (b, ((F.set b none).get? b).join) = (b, none)
          rw [List.get?_eq_getElem?, List.getElem?_set_self (by omega)]
          rfl
        · exact List.map_congr_left fun i hi => by
            rw [readBlock_damage (Nat.ne_of_gt (List.mem_range'_1.1 hi).1)]
  · exact .inl (List.map_congr_left fun i hi => by
      rw [readBlock_damage (Nat.ne_of_lt ((List.mem_range.1 hi).trans_le (Nat.not_lt.1 hb)))])

section Files

variable {F : List (Option BlockLayout)} {fs : List Bool} {b : Nat}

/-- Making block `b` of a file undecryptable leaves the entry a pass keeps for `k` when it is not
the one at block `b`. -/
theorem keptEntry_damage_file (f : UInt64) (k : K)
    (hlive : b < 2 ^ 32 → ∀ x, keptEntry P f k (scanned (Disk.ofFile F fs)) = some x →
      x.1.loadBlock ≠ b.toUInt32) :
    keptEntry P f k (scanned (Disk.ofFile (F.set b none) fs)) =
      keptEntry P f k (scanned (Disk.ofFile F fs)) := by
  rcases scanned_damage F fs b with h | ⟨hb, pre, post, h, h'⟩
  · rw [h]
  · rw [h'] ; rw [h] at hlive ⊢
    exact keptEntry_damage P pre post k (hlive hb)

/-- Making block `b` of a file undecryptable leaves the terminator the first pass keeps when it is
not at block `b`. -/
theorem newestTerminator_damage_file
    (hlive : ∀ t, newestTerminator (scanned (Disk.ofFile F fs)) = some t → t.1 ≠ b) :
    newestTerminator (scanned (Disk.ofFile (F.set b none) fs)) =
      newestTerminator (scanned (Disk.ofFile F fs)) := by
  rcases scanned_damage F fs b with h | ⟨-, pre, post, h, h'⟩
  · rw [h]
  · rw [h'] ; rw [h] at hlive ⊢
    exact newestTerminator_damage pre post hlive

/-- Making block `b` of a file undecryptable leaves the terminator a later pass keeps when it is
not at block `b`. -/
theorem flushTerminator_damage_file (f : UInt64)
    (hlive : ∀ t, flushTerminator f (scanned (Disk.ofFile F fs)) = some t → t.1 ≠ b) :
    flushTerminator f (scanned (Disk.ofFile (F.set b none) fs)) =
      flushTerminator f (scanned (Disk.ofFile F fs)) := by
  rcases scanned_damage F fs b with h | ⟨-, pre, post, h, h'⟩
  · rw [h]
  · rw [h'] ; rw [h] at hlive ⊢
    exact flushTerminator_damage pre post hlive

/-- The terminator a pass keeps lies among the blocks it reads, below `2^32`. -/
theorem keptTerminator_toNat {t : Nat × BlockLayout} {f : UInt64}
    (ht : t ∈ terminators f (scanned (Disk.ofFile F fs))) :
    (keptTerminator (some t)).2.1.toNat = t.1 := by
  obtain ⟨ob, hb, -⟩ := mem_terminators.1 ht
  show t.1.toUInt32.toNat = t.1
  rw [Nat.toNat_toUInt32,
    Nat.mod_eq_of_lt ((mem_scanned.1 hb).1.trans (Nat.mod_lt _ (by norm_num)))]

/-- A pass over a file whose selections avoid block `b`, the block of no entry's run and not the
terminator it holds, selects the same from the file with block `b` made undecryptable. -/
theorem Kept.damage {f : UInt64} {st st' : ScanState K V}
    (hk : Kept P f (scanned (Disk.ofFile F fs)) st)
    (hk' : Kept P f (scanned (Disk.ofFile (F.set b none) fs)) st')
    (hE : ∀ e ∈ st.u.map, inRun e.2.1.loadBlock e.2.1.loadCount b = false)
    (hT : b ≠ st.u.lastf.toNat) : SameSelection st st' := by
  have he : ∀ k, keptEntry P f k (scanned (Disk.ofFile (F.set b none) fs)) =
      keptEntry P f k (scanned (Disk.ofFile F fs)) := fun k =>
    keptEntry_damage_file f k fun hb x hx heq => by
      obtain ⟨j, -, hr⟩ := keptEntry_offered P hx
      have hc : x.1 = nullControl.loaded x.1.order j.1 1 := (recordOffer_control P hr).2
      have hin := hE _ (mem_of_findEntry (by rw [hk.entry]; exact hx))
      rw [heq, show x.1.loadCount = 1 by rw [hc]; rfl] at hin
      simp [inRun] at hin
      omega
  have hn : f = u64Max → newestTerminator (scanned (Disk.ofFile (F.set b none) fs)) =
      newestTerminator (scanned (Disk.ofFile F fs)) := fun hf =>
    newestTerminator_damage_file fun t ht htb => hT (by
      have h := congrArg (fun x => x.2.1.toNat) (hk.first hf)
      simp only [ht] at h
      rw [h, keptTerminator_toNat ((foldl_pick_some _ _ none ht).1.resolve_left nofun), htb])
  have hl : f ≠ u64Max → flushTerminator f (scanned (Disk.ofFile (F.set b none) fs)) =
      flushTerminator f (scanned (Disk.ofFile F fs)) := fun hf =>
    flushTerminator_damage_file f fun t ht htb => hT (by
      have h := congrArg (fun x => x.1.toNat) (hk.later hf)
      simp only [ht] at h
      rw [h, keptTerminator_toNat (List.mem_filter.1 (List.mem_of_mem_getLast? ht)).1, htb])
  exact hk.same hk' he hn hl

end Files

/-! ### Recovery of a damaged file -/

/-- `reload` with two calls at most: a pass, and a second one when the first calls for it. -/
theorem reload_two (s : Umap K V) : reload P 2 s =
    if (reloadPass P s).2 then
      if (reloadPass P (reloadPass P s).1).2 then none else some (reloadPass P (reloadPass P s).1).1
    else some (reloadPass P s).1 := rfl

/-- The blocks that the map `u` depends on: the runs of its entries and the terminator
`m_lastf`. -/
def Live (u : Umap K V) (p : Nat) : Prop :=
  p = u.lastf.toNat ∨ ∃ e ∈ u.map, inRun e.2.1.loadBlock e.2.1.loadCount p = true

instance (u : Umap K V) : DecidablePred (Live u) := fun _ => instDecidableOr

variable (P)

/-- Recovery ignores damage outside the live set. On a file whose valid terminators have distinct
orders, if `reload` returns without the salvage pass, then making a block outside the live set of
the map it recovers undecryptable leaves every lookup of the recovered map as it was, again without
the salvage pass; provided the HMAC tells the recovered map apart from the map of the first pass
on the damaged file. -/
theorem reload_damage {F : List (Option BlockLayout)} {fs : List Bool} {u : Umap K V} {b : Nat}
    (hd : TerminatorsDistinct (scanned (Disk.ofFile F fs)))
    (hr : reload P 2 { Umap.fresh (Disk.ofFile F fs) with flush := u64Max } = some u)
    (hb : ¬ Live u b)
    (hsep : Separates P
      (reloadPass P { Umap.fresh (Disk.ofFile (F.set b none) fs) with flush := u64Max }).1.map
      u.map) :
    ∃ u' : Umap K V,
      reload P 2 { Umap.fresh (Disk.ofFile (F.set b none) fs) with flush := u64Max } = some u' ∧
        ∀ k, findEntry k u'.map = findEntry k u.map := by
  simp only [Live, not_or, not_exists, not_and, Bool.not_eq_true] at hb
  obtain ⟨hT, hE⟩ := hb
  obtain ⟨st₁, hk₁, hp₁⟩ : ∃ st, Kept P u64Max (scanned (Disk.ofFile F fs)) st ∧
      reloadPass P { Umap.fresh (Disk.ofFile F fs) with flush := u64Max } = selectPass st :=
    reloadPass_kept P { Umap.fresh (Disk.ofFile F fs) with flush := u64Max }
  obtain ⟨st₁', hk₁', hp₁'⟩ : ∃ st, Kept P u64Max (scanned (Disk.ofFile (F.set b none) fs)) st ∧
      reloadPass P { Umap.fresh (Disk.ofFile (F.set b none) fs) with flush := u64Max } =
        selectPass st :=
    reloadPass_kept P { Umap.fresh (Disk.ofFile (F.set b none) fs) with flush := u64Max }
  have hfirst := reloadPass_first P (s := { Umap.fresh (Disk.ofFile F fs) with flush := u64Max })
    rfl
  rw [reload_two, hp₁] at hr
  rw [reload_two, hp₁']
  by_cases h₁ : (selectPass st₁).2 = true
  · -- the first pass rolled back: the second pass returned
    rw [if_pos h₁] at hr
    set bs := scanned (Disk.ofFile F fs) with hbs
    set f₂ := (keptTerminator (newestTerminator bs)).1 with hf₂
    have ho₁ : st₁.u.order = f₂ := congrArg Prod.fst (hk₁.first rfl)
    obtain ⟨st₂, hk₂, hp₂⟩ : ∃ st, Kept P f₂ bs st ∧
        reloadPass P (selectPass st₁).1 = selectPass st := by
      obtain ⟨st, hk, hp⟩ := reloadPass_kept P (selectPass st₁).1
      have hdata : st₁.u.data = Disk.ofFile F fs := by
        rw [← selectPass_data, ← hp₁, reloadPass_data]; rfl
      rw [selectPass_data, hdata, selectPass_flush_first hk₁.flush, ho₁] at hk
      exact ⟨st, hk, hp⟩
    have hs₂ : f₂ ≠ u64Max ∧ f₂ ≠ u64Minus2 := flush_ne_sentinels (by
      rw [← ho₁, ← selectPass_flush_first hk₁.flush, ← hp₁]; exact hfirst)
    rw [hp₂] at hr
    have h₂ : (selectPass st₂).2 = false := by
      cases h : (selectPass st₂).2 with
      | false => rfl
      | true => rw [h, if_pos rfl] at hr; cases hr
    rw [h₂] at hr
    simp only [Bool.false_eq_true, if_false, Option.some.injEq] at hr
    subst hr
    have hE₂ : ∀ e ∈ st₂.u.map, inRun e.2.1.loadBlock e.2.1.loadCount b = false :=
      fun e he => hE e (by rwa [selectPass_map])
    have hT₂ : b ≠ st₂.u.lastf.toNat := by rwa [selectPass_lastf] at hT
    -- the rollback pass holds the first pass's terminator, which is live
    have hkeep : flushTerminator f₂ bs = newestTerminator bs := flushTerminator_of_distinct hd
    have hn' : newestTerminator (scanned (Disk.ofFile (F.set b none) fs)) = newestTerminator bs :=
      newestTerminator_damage_file fun t ht htb => hT₂ (by
        have h := congrArg (fun x => x.1.toNat) (hk₂.later hs₂.1)
        simp only [hkeep, ht] at h
        rw [h, keptTerminator_toNat ((foldl_pick_some _ _ none ht).1.resolve_left nofun), htb])
    have hfirst' := hk₁'.first rfl
    rw [hn'] at hfirst'
    by_cases h₁' : (selectPass st₁').2 = true
    · -- the damaged file rolls back too, to the same selections
      rw [if_pos h₁']
      obtain ⟨st₂', hk₂', hp₂'⟩ : ∃ st, Kept P f₂ (scanned (Disk.ofFile (F.set b none) fs)) st ∧
          reloadPass P (selectPass st₁').1 = selectPass st := by
        obtain ⟨st, hk, hp⟩ := reloadPass_kept P (selectPass st₁').1
        have hdata : st₁'.u.data = Disk.ofFile (F.set b none) fs := by
          rw [← selectPass_data, ← hp₁', reloadPass_data]; rfl
        rw [selectPass_data, hdata, selectPass_flush_first hk₁'.flush,
          show st₁'.u.order = f₂ from congrArg Prod.fst hfirst'] at hk
        exact ⟨st, hk, hp⟩
      have hsame := hk₂.damage hk₂' hE₂ hT₂
      rw [hp₂', hsame.selectPass.1, h₂]
      exact ⟨_, rfl, fun k => by rw [selectPass_map, selectPass_map, hsame.entry]⟩
    · -- the damaged file returns from the first pass, with the hash of the same terminator
      rw [if_neg h₁']
      refine ⟨_, rfl, fun k => ?_⟩
      rw [selectPass_map, selectPass_map]
      rw [hp₁', selectPass_map, selectPass_map] at hsep
      refine hk₂.entries_of_hash hk₁' (fun j sb => get?_damage) hsep (Digest.bytes_injective ?_) k
      rw [selectPass_agree (by rw [hk₁'.flush]; decide) (by simpa using h₁'),
        selectPass_agree (by rw [hk₂.flush]; exact hs₂.2) h₂,
        show st₁'.lastHash = (keptTerminator (newestTerminator bs)).2.2 from
          congrArg (fun x => x.2.2) hfirst', ← hkeep]
      exact congrArg Prod.snd (hk₂.later hs₂.1).symm
  · -- the first pass returned
    rw [if_neg h₁] at hr
    cases hr
    have hsame := hk₁.damage hk₁' (fun e he => hE e (by rwa [selectPass_map]))
      (by rwa [selectPass_lastf] at hT)
    refine ⟨(selectPass st₁').1, by rw [if_neg (by rw [hsame.selectPass.1]; exact h₁)], fun k => ?_⟩
    rw [selectPass_map, selectPass_map, hsame.entry]

/-! ### Recovery by `init` -/

/-- More fuel leaves a result of `reload` as it was. -/
theorem reload_succ {fuel : Nat} {s u : Umap K V} (h : reload P fuel s = some u) :
    reload P (fuel + 1) s = some u := by
  induction fuel generalizing s with
  | zero => cases h
  | succ fuel ih =>
    change (if (reloadPass P s).2 then reload P fuel (reloadPass P s).1
      else some (reloadPass P s).1) = some u at h
    change (if (reloadPass P s).2 then reload P (fuel + 1) (reloadPass P s).1
      else some (reloadPass P s).1) = some u
    split at h
    · rw [if_pos ‹_›]; exact ih h
    · rwa [if_neg ‹_›]

/-- When `reload` returns from the first pass or the rollback pass, `m_flush` is its `m_order`. -/
theorem reload_two_flush {s u : Umap K V} (hs : s.flush = u64Max) (h : reload P 2 s = some u) :
    u.flush = u.order := by
  rw [reload_two] at h
  cases h₁ : (reloadPass P s).2 with
  | true =>
    cases h₂ : (reloadPass P (reloadPass P s).1).2 with
    | true => rw [h₁, h₂, if_pos rfl, if_pos rfl] at h; cases h
    | false =>
      rw [h₁, h₂, if_pos rfl, if_neg Bool.false_ne_true] at h
      cases h
      obtain ⟨st, hf, -, hr⟩ := reloadPass_eq P (reloadPass P s).1
      rw [hr] at h₂ ⊢
      exact selectPass_flush_order
        (by rw [hf]; exact (flush_ne_sentinels (reloadPass_first P hs)).2) h₂
  | false =>
    rw [h₁, if_neg Bool.false_ne_true] at h
    cases h
    obtain ⟨st, hf, -, hr⟩ := reloadPass_eq P s
    rw [hr] at h₁ ⊢
    exact selectPass_flush_order (by rw [hf, hs]; decide) h₁

/-- When its `reload` returns without the salvage pass, `init` returns what `reload` recovered:
`m_flush` is `m_order`, so `finalize` writes nothing. -/
theorem init_of_reload_two {s u : Umap K V} (h : reload P 2 { s with flush := u64Max } = some u) :
    init P s = some u := by
  unfold init
  rw [reload_succ P h, Option.some_bind]
  have hf := reload_two_flush P rfl h
  split
  · unfold finalize
    rw [if_pos (by rw [hf]; exact UInt64.le_iff_toNat_le.2 (Nat.le_refl _))]
  · rfl

/-- Recovery ignores damage outside the live set, on every file that a crash leaves in a run of the
code from an empty file, while its orders do not wrap. If `init` on such a file ends without the
salvage pass, with the map `u`, then making a block outside the live set of `u` undecryptable
leaves the map that `init` recovers with the same lookups, again without the salvage pass;
provided the HMAC tells `u` apart from the map of the first pass on the damaged file. -/
theorem init_ignores_damage (hsave : ∀ k v, (P.save k v).length < 2 ^ 64) {s u : Umap K V}
    (hrun : Runs P s) (keep : Nat → Bool) (fs : List Bool) {b : Nat}
    (hr : reload P 2 { Umap.fresh (Disk.ofFile (s.data.crash keep) fs) with flush := u64Max } =
      some u)
    (hb : ¬ Live u b)
    (hsep : Separates P (reloadPass P { Umap.fresh (Disk.ofFile ((s.data.crash keep).set b none) fs)
      with flush := u64Max }).1.map u.map) :
    reopen P (s.data.crash keep) fs = some u ∧ ∃ u' : Umap K V,
      reload P 2 { Umap.fresh (Disk.ofFile ((s.data.crash keep).set b none) fs) with
        flush := u64Max } = some u' ∧
      reopen P ((s.data.crash keep).set b none) fs = some u' ∧
      ∀ k, findEntry k u'.map = findEntry k u.map := by
  obtain ⟨u', hr', he⟩ := reload_damage P (runs_terminatorsDistinct P hsave hrun keep fs) hr hb hsep
  exact ⟨init_of_reload_two P hr, u', hr', init_of_reload_two P hr', he⟩

/-! ### A run with a stale record -/

/-- Key `0` added with value `1` and flushed, then given the value `2` and flushed again, from an
empty file. -/
def staleRecordRun : Umap UInt8 UInt8 :=
  let s₀ := (reopen byteParams [] []).getD (Umap.fresh (Disk.ofFile [] []))
  let s₁ := ((Action.flushWith [.add true 0 1]).run byteParams insertionOrder s₀).getD s₀
  ((Action.flushWith [.index 0 2]).run byteParams insertionOrder s₁).getD s₁

/-- Nothing of `staleRecordRun` is lost in the crash: the file holds the stale record at block `0`,
its terminator at block `1`, and the live record and terminator at blocks `2` and `3`. Making the
stale record undecryptable leaves the recovered map as it was. -/
theorem init_ignores_stale_record : ∃ u : Umap UInt8 UInt8,
    (∀ k v, (byteParams.save k v).length < 2 ^ 64) ∧ Runs byteParams staleRecordRun ∧
    reload byteParams 2 { Umap.fresh (Disk.ofFile (staleRecordRun.data.crash fun _ => true) [])
      with flush := u64Max } = some u ∧ ¬ Live u 0 ∧
    Separates byteParams (reloadPass byteParams { Umap.fresh (Disk.ofFile
      ((staleRecordRun.data.crash fun _ => true).set 0 none) []) with flush := u64Max }).1.map
      u.map ∧
    (reopen byteParams (staleRecordRun.data.crash fun _ => true) [] = some u ∧
      ∃ u' : Umap UInt8 UInt8, reload byteParams 2 { Umap.fresh (Disk.ofFile
        ((staleRecordRun.data.crash fun _ => true).set 0 none) []) with flush := u64Max } =
          some u' ∧
      reopen byteParams ((staleRecordRun.data.crash fun _ => true).set 0 none) [] = some u' ∧
      ∀ k, findEntry k u'.map = findEntry k u.map) := by
  obtain ⟨s₀, s₁, h₀, h₁, h₂, hg₁, hg₂⟩ : ∃ s₀ s₁ : Umap UInt8 UInt8,
      reopen byteParams [] [] = some s₀ ∧
      (Action.flushWith [.add true 0 1]).run byteParams insertionOrder s₀ = some s₁ ∧
      (Action.flushWith [.index 0 2]).run byteParams insertionOrder s₁ = some staleRecordRun ∧
      s₀.order.toNat + (Action.flushWith [.add true 0 1]).room s₀ < 2 ^ 64 ∧
      s₁.order.toNat + (Action.flushWith [.index 0 2]).room s₁ < 2 ^ 64 :=
    let s₀ : Umap UInt8 UInt8 := (reopen byteParams [] []).getD (Umap.fresh (Disk.ofFile [] []))
    let s₁ := ((Action.flushWith [.add true 0 1]).run byteParams insertionOrder s₀).getD s₀
    ⟨s₀, s₁, by decide, by decide, by decide, by decide, by decide⟩
  obtain ⟨u, hr, hb, hsep⟩ : ∃ u : Umap UInt8 UInt8,
      reload byteParams 2 { Umap.fresh (Disk.ofFile (staleRecordRun.data.crash fun _ => true) [])
        with flush := u64Max } = some u ∧ ¬ Live u 0 ∧
      Separates byteParams (reloadPass byteParams { Umap.fresh (Disk.ofFile
        ((staleRecordRun.data.crash fun _ => true).set 0 none) []) with flush := u64Max }).1.map
        u.map :=
    ⟨(reload byteParams 2 { Umap.fresh (Disk.ofFile (staleRecordRun.data.crash fun _ => true) [])
        with flush := u64Max }).getD staleRecordRun, by decide, by decide, by decide⟩
  have hrun : Runs byteParams staleRecordRun :=
    .act _ (.act _ (.start h₀) iterOrder_insertionOrder hg₁ h₁) iterOrder_insertionOrder hg₂ h₂
  have hsave : ∀ k v, (byteParams.save k v).length < 2 ^ 64 := fun _ _ => by simp [byteParams]
  exact ⟨u, hsave, hrun, hr, hb, hsep,
    init_ignores_damage byteParams hsave hrun (fun _ => true) [] hr hb hsep⟩

end Todokanai.Ssdb
