import Todokanai.Ssdb.FreeSets

/-!
# The free map over runs of the map: a free tail and a trailing empty run

Over runs of `umap` from an empty file, `m_free` starts as the sentinel `[]`, every block free,
and the first `get_free(1)` replaces it by the run `(1, 2^32 - 1)`. From then on every block from
the end of the file on is free: the last run ends at `2^32` and no run starts past the end of the
file. The first `finalize` that writes a terminator frees `m_lastf = 2^32 - 1`, which `add_free`
clamps to the empty run `(2^32 - 1, 0)` after the last run, and there it stays. That entry breaks
the gap between consecutive runs that `FreeInv` asks for, but it covers nothing, and `get_free(1)`
and `add_free` of a block in use act on the map as on the map without it.

* `Tail m c`: every block from `c` on is covered.
* `FreeShape m c d`: `m` is `[]`, or a map keeping `FreeInv` with a free tail from `c`, followed by
  `lastRun = (2^32 - 1, 0)` when `d`.
* `getFree_shape`, `addFree_shape`, `addFree_max_shape`: `get_free(1)`, `add_free(b, 1)` of a
  block in use and `add_free(2^32 - 1, 1)` on such maps, and the free blocks they leave.

Source: `src/src/util/ssdb.cpp`, `free_space::add_free` (lines 43–87) and `free_space::get_free`
(lines 89–147); the free of `m_lastf` in `umap::finalize`, `src/src/util/ssdb.hpp` (lines 376–428).
-/

namespace Todokanai.Ssdb

/-- The empty run that freeing block `2^32 - 1` leaves after the last run. -/
def lastRun : UInt32 × UInt32 := (0xFFFFFFFF, 0)

/-- Every block from `c` on is covered by a run of `m`. -/
def Tail (m : FreeMap) (c : Nat) : Prop :=
  ∀ p, c ≤ p → p < 2 ^ 32 → Covers m p

theorem Tail.mono {m : FreeMap} {c c' : Nat} (h : Tail m c) (hc : c ≤ c') : Tail m c' :=
  fun p hp => h p (hc.trans hp)

theorem toNat_u32One : (1 : UInt32).toNat = 1 := rfl

theorem FreeInv.apart_or {m : FreeMap} (hm : FreeInv m) {e e' : UInt32 × UInt32} (he : e ∈ m)
    (he' : e' ∈ m) (hne : e ≠ e') : Apart e e' ∨ Apart e' e :=
  have h : m.Pairwise fun a b => Apart a b ∨ Apart b a := hm.apart.imp Or.inl
  h.forall (fun _ _ h => h.symm) he he' hne

/-! ### A free tail -/

/-- With every block from `c` on free, no run starts past `c`. -/
theorem key_le_of_tail {m : FreeMap} {c : Nat} (hm : FreeInv m) (ht : Tail m c)
    {e : UInt32 × UInt32} (he : e ∈ m) : e.1.toNat ≤ c := by
  by_contra hlt
  obtain ⟨e', he', h₁, h₂⟩ := ht (e.1.toNat - 1) (by omega) (by have := e.1.toNat_lt; omega)
  have hne : e ≠ e' := fun h => by subst h; omega
  rcases hm.apart_or he he' hne with h | h <;> unfold Apart at h <;> omega

/-- The run that holds block `c` ends at `2^32`. -/
theorem tail_run {m : FreeMap} {c : Nat} (hm : FreeInv m) (ht : Tail m c) (hc : c < 2 ^ 32) :
    ∃ e ∈ m, e.1.toNat ≤ c ∧ e.1.toNat + e.2.toNat = 2 ^ 32 := by
  obtain ⟨e, he, h₁, h₂⟩ := ht c le_rfl hc
  have := add_le_of_covers hm he ⟨h₁, h₂⟩ (2 ^ 32 - c) fun j _ => ht (c + j) (by omega) (by omega)
  exact ⟨e, he, h₁, by have := hm.ends e he; omega⟩

/-- A block in use lies before the start of the run of the tail. -/
theorem lt_key_of_tail {m : FreeMap} {c : Nat} (hm : FreeInv m) (ht : Tail m c) (hc : c < 2 ^ 32)
    {b : UInt32} (hb : ¬ Covers m b.toNat) : ∃ e ∈ m, b < e.1 := by
  obtain ⟨e, he, -, hend⟩ := tail_run hm ht hc
  refine ⟨e, he, UInt32.lt_iff_toNat_lt.2 (Nat.lt_of_not_le fun h => hb ⟨e, he, h, ?_⟩)⟩
  have := b.toNat_lt; omega

/-- The run that ends at `2^32` is the last. -/
theorem getLast?_of_end {m : FreeMap} (hm : FreeInv m) {e : UInt32 × UInt32} (he : e ∈ m)
    (hend : e.1.toNat + e.2.toNat = 2 ^ 32) : m.getLast? = some e := by
  obtain ⟨l₁, l₂, rfl⟩ := List.append_of_mem he
  cases l₂ with
  | nil => exact List.getLast?_concat l₁
  | cons x l₂ =>
    have hx := (List.pairwise_cons.1 (List.pairwise_append.1 hm.apart).2.1).1 x
      (List.mem_cons_self _ _)
    unfold Apart at hx
    have := x.1.toNat_lt
    omega

/-! ### The trailing empty run -/

theorem not_max_lt (b : UInt32) : ¬ (0xFFFFFFFF : UInt32) < b := by
  rw [UInt32.lt_iff_toNat_lt, toNat_u32Max]; have := b.toNat_lt; omega

theorem takeWhile_append_lastRun (m : FreeMap) (b : UInt32) :
    (m ++ [lastRun]).takeWhile (fun e => e.1 < b) = m.takeWhile (fun e => e.1 < b) := by
  induction m with
  | nil => simp [lastRun, not_max_lt]
  | cons x m ih => simp only [List.cons_append, List.takeWhile_cons, ih]

theorem dropWhile_append_lastRun (m : FreeMap) (b : UInt32) :
    (m ++ [lastRun]).dropWhile (fun e => e.1 < b) =
      m.dropWhile (fun e => e.1 < b) ++ [lastRun] := by
  induction m with
  | nil => simp [lastRun, not_max_lt]
  | cons x m ih => simp only [List.cons_append, List.dropWhile_cons, ih]; split <;> rfl

theorem mem_dropWhile_of_not {p : UInt32 × UInt32 → Bool} {m : FreeMap} {e : UInt32 × UInt32}
    (he : e ∈ m) (hp : p e = false) : e ∈ m.dropWhile p := by
  rw [← List.takeWhile_append_dropWhile p m, List.mem_append] at he
  exact he.resolve_left fun h => by rw [List.mem_takeWhile_imp h] at hp; cases hp

theorem emplaceAt_append_lastRun (b n : UInt32) {l : FreeMap} (hl : ∃ e ∈ l, e.1 ≠ b) :
    emplaceAt b n (l ++ [lastRun]) = ((emplaceAt b n l).1, (emplaceAt b n l).2 ++ [lastRun]) ∧
      (emplaceAt b n l).2 ≠ [] := by
  obtain ⟨e, he, heb⟩ := hl
  cases l with
  | nil => cases he
  | cons x rest =>
    obtain ⟨k, len⟩ := x
    simp only [List.cons_append, emplaceAt]
    split_ifs with hk
    · subst hk
      refine ⟨rfl, List.ne_nil_of_mem (?_ : e ∈ rest)⟩
      rcases List.mem_cons.1 he with rfl | h
      · exact absurd rfl heb
      · exact h
    · exact ⟨rfl, List.cons_ne_nil _ _⟩

theorem mergeNext_append_lastRun (s l : UInt32) {hi : FreeMap} (h : hi ≠ []) :
    mergeNext s l (hi ++ [lastRun]) = mergeNext s l hi ++ [lastRun] := by
  cases hi with
  | nil => exact absurd rfl h
  | cons x hi => simp only [List.cons_append, mergeNext]; split_ifs <;> rfl

/-- `add_free` of a block before some run leaves the trailing empty run at the end. -/
theorem addFree_append_lastRun {m : FreeMap} {b : UInt32} (n : UInt32) (h : ∃ e ∈ m, b < e.1) :
    addFree (m ++ [lastRun]) b n = addFree m b n ++ [lastRun] := by
  obtain ⟨e, he, hbe⟩ := h
  unfold addFree
  split_ifs with hn
  · rfl
  rw [takeWhile_append_lastRun, dropWhile_append_lastRun]
  have hd : ∃ x ∈ m.dropWhile (fun e => e.1 < b), x.1 ≠ b :=
    ⟨e, mem_dropWhile_of_not he (by
      rw [UInt32.lt_iff_toNat_lt] at hbe
      simp only [decide_eq_false_iff_not, UInt32.lt_iff_toNat_lt]
      omega), fun h => by rw [UInt32.lt_iff_toNat_lt, h] at hbe; omega⟩
  obtain ⟨h₁, h₂⟩ := emplaceAt_append_lastRun b n hd
  rw [h₁]
  generalize emplaceAt b n (m.dropWhile fun e => e.1 < b) = E at h₂ ⊢
  obtain ⟨len, hi⟩ := E
  dsimp only at h₂ ⊢
  split
  · split_ifs <;> rw [mergeNext_append_lastRun _ _ h₂, List.append_assoc]
  · rw [mergeNext_append_lastRun _ _ h₂]

theorem bestFit_append_lastRun {count : UInt32} (hc : count ≠ 0) (l : FreeMap) :
    ∀ res, bestFit count res (l ++ [lastRun]) = bestFit count res l := by
  have hlt : ¬ count ≤ 0 := fun h => hc (UInt32.eq_iff_toNat_eq.2 (by
    rw [UInt32.le_iff_toNat_le] at h; simp only [UInt32.toNat_zero] at h ⊢; omega))
  induction l with
  | nil => intro res; simp [bestFit, lastRun, hlt]
  | cons x l ih => intro res; rw [List.cons_append]; simp only [bestFit, ih]

theorem eraseKey_append_lastRun {pos : UInt32} (h : pos ≠ 0xFFFFFFFF) (l : FreeMap) :
    eraseKey pos (l ++ [lastRun]) = eraseKey pos l ++ [lastRun] := by
  simp [eraseKey, List.filter_append, lastRun, Ne.symm h]

theorem emplace_append_lastRun {k : UInt32} (h : k < 0xFFFFFFFF) (v : UInt32) (l : FreeMap) :
    emplace k v (l ++ [lastRun]) = emplace k v l ++ [lastRun] := by
  induction l with
  | nil => simp [emplace, lastRun, h]
  | cons x l ih => rw [List.cons_append]; simp only [emplace, ih]; split_ifs <;> rfl

/-- `get_free(1)` on a map with a free tail ignores a trailing empty run. -/
theorem getFree_append_lastRun {m : FreeMap} {c : Nat} (hm : FreeInv m) (ht : Tail m c)
    (hc : c + 2 < 2 ^ 32) :
    getFree (m ++ [lastRun]) 1 = (getFree m 1).map fun r => (r.1, r.2 ++ [lastRun]) := by
  have hne : m ≠ [] := fun h => by
    obtain ⟨e, he, -⟩ := ht c le_rfl (by omega); rw [h] at he; cases he
  unfold getFree
  rw [bestFit_append_lastRun (by decide)]
  cases hb : bestFit 1 none m with
  | none => simp [hne]
  | some r =>
    obtain ⟨pos, len⟩ := r
    obtain ⟨h₁, h₂, -⟩ := bestFit_spec (fun _ h => by cases h) hb
    have hr : (pos, len) ∈ m := h₂.resolve_left (Option.not_mem_none _)
    have hpos : pos.toNat ≤ c := key_le_of_tail hm ht hr
    dsimp only at h₁
    rw [toNat_u32One] at h₁
    have hmax : pos ≠ 0xFFFFFFFF := fun h => by rw [h, toNat_u32Max] at hpos; omega
    have hsucc : pos + 1 < 0xFFFFFFFF := by
      rw [UInt32.lt_iff_toNat_lt, UInt32.toNat_add_of_lt (by rw [toNat_u32One]; omega),
        toNat_u32Max, toNat_u32One]
      omega
    dsimp only
    rw [eraseKey_append_lastRun hmax]
    by_cases hlen : len - 1 ≠ 0
    · rw [if_pos hlen, if_pos hlen, emplace_append_lastRun hsucc]; rfl
    · -- a run of one block is taken, and the run of the tail stays
      have hlen1 : len.toNat = 1 := by
        rw [not_not, UInt32.eq_iff_toNat_eq, UInt32.toNat_sub_of_le' (by rw [toNat_u32One]; omega),
          toNat_u32One, UInt32.toNat_zero] at hlen
        omega
      obtain ⟨e, he, -, hend⟩ := tail_run hm ht (by omega)
      have hek : e.1 ≠ pos := fun hk => by
        have hne' : e ≠ (pos, len) := fun h => by rw [h] at hend; dsimp only at hend; omega
        rcases hm.apart_or he hr hne' with h | h <;> unfold Apart at h <;> dsimp only at h <;>
          rw [hk] at h <;> omega
      have hrest : eraseKey pos m ≠ [] :=
        List.ne_nil_of_mem (List.mem_filter.2 ⟨he, by simpa using hek⟩)
      rw [if_neg hlen, if_neg hlen, if_neg (by simp), if_neg hrest]
      rfl

/-! ### The free maps of runs -/

/-- The free maps of runs of the map: the sentinel, or a map keeping `FreeInv` whose blocks from
`c` on are all free, followed by `lastRun` when `d`. -/
def FreeShape (m : FreeMap) (c : Nat) (d : Bool) : Prop :=
  (m = [] ∧ d = false) ∨ ∃ core, FreeInv core ∧ Tail core c ∧
    m = core ++ if d then [lastRun] else []

theorem FreeShape.mono {m : FreeMap} {c c' : Nat} {d : Bool} (h : FreeShape m c d)
    (hc : c ≤ c') : FreeShape m c' d := by
  rcases h with h | ⟨core, hi, ht, hm⟩
  · exact .inl h
  · exact .inr ⟨core, hi, ht.mono hc, hm⟩

theorem isFree_append_lastRun {m : FreeMap} (hm : m ≠ []) (p : Nat) :
    IsFree (m ++ [lastRun]) p ↔ IsFree m p := by
  rw [isFree_of_ne_nil (by simp), isFree_of_ne_nil hm]
  simp [lastRun]

theorem isFree_core {core : FreeMap} (hc : core ≠ []) (d : Bool) (p : Nat) :
    IsFree (core ++ if d then [lastRun] else []) p ↔ IsFree core p := by
  cases d
  · rw [if_neg Bool.false_ne_true, List.append_nil]
  · rw [if_pos rfl, isFree_append_lastRun hc]

theorem Tail.ne_nil {m : FreeMap} {c : Nat} (ht : Tail m c) (hc : c < 2 ^ 32) : m ≠ [] :=
  fun h => by obtain ⟨e, he, -⟩ := ht c le_rfl hc; rw [h] at he; cases he

/-- `get_free(1)` on the map `core` of a free shape: a free block of the file or the block at its
end, taken out of the free blocks. -/
theorem getFree_core {core : FreeMap} {c : Nat} (hi : FreeInv core) (ht : Tail core c)
    (hc : c + 2 < 2 ^ 32) :
    ∃ pos core', getFree core 1 = some (pos, core') ∧ pos.toNat ≤ c ∧ IsFree core pos.toNat ∧
      (∀ p < 2 ^ 32, IsFree core' p ↔ IsFree core p ∧ p ≠ pos.toNat) ∧ FreeInv core' ∧
      Tail core' (max c (pos.toNat + 1)) := by
  cases hb : bestFit 1 none core with
  | none =>
    obtain ⟨e, he, h₁, h₂⟩ := ht c le_rfl (by omega)
    have := (bestFit_eq_none hb).2 e he
    simp at this; omega
  | some r =>
    obtain ⟨lo, hi', hsplit, -, -, hg⟩ := getFree_split hi.apart hi.ends hb
    generalize hm' : (if (1 : UInt32).toNat < r.2.toNat then lo ++ (r.1 + 1, r.2 - 1) :: hi'
      else if lo ++ hi' = [] then [(0, 0)] else lo ++ hi') = core' at hg
    have hr : r ∈ core := by rw [hsplit]; simp
    obtain ⟨hfree, hne, hiff⟩ := isFree_getFree hi (by decide) hg
    have hiff' : ∀ p < 2 ^ 32, IsFree core' p ↔ IsFree core p ∧ p ≠ r.1.toNat := fun p hp => by
      rw [hiff p hp]; simp only [toNat_u32One]; constructor <;> rintro ⟨h, h'⟩ <;>
        exact ⟨h, by omega⟩
    refine ⟨r.1, core', hg, key_le_of_tail hi ht hr, hfree _ le_rfl (by simp), hiff',
      freeInv_getFree hi (by decide) hg, fun p hp hp' => ?_⟩
    have := (hiff' p hp').2 ⟨Or.inr (ht p (le_of_max_le_left hp) hp'), by omega⟩
    exact (isFree_of_ne_nil hne p).1 this

/-- `get_free(1)` on a free shape whose tail starts two blocks before `2^32` at least returns a
free block of the file or the block at its end, takes it out of the free blocks and keeps the
shape, with the tail after that block. -/
theorem getFree_shape {m : FreeMap} {c : Nat} {d : Bool} (h : FreeShape m c d)
    (hc : c + 2 < 2 ^ 32) :
    ∃ pos m', getFree m 1 = some (pos, m') ∧ pos.toNat ≤ c ∧ IsFree m pos.toNat ∧
      (∀ p < 2 ^ 32, IsFree m' p ↔ IsFree m p ∧ p ≠ pos.toNat) ∧ m' ≠ [] ∧
      FreeShape m' (max c (pos.toNat + 1)) d := by
  rcases h with ⟨rfl, rfl⟩ | ⟨core, hi, ht, rfl⟩
  · refine ⟨0, [(1, 0xFFFFFFFF)], rfl, Nat.zero_le _, .inl rfl, fun p hp => ?_, by simp,
      .inr ⟨[(1, 0xFFFFFFFF)], freeInv_singleton (by decide) (by decide), fun p hp hp' => ?_,
        by simp⟩⟩
    · simp only [IsFree, List.cons_ne_nil, covers_cons, covers_nil, true_or, true_and]
      simp only [toNat_u32One, toNat_u32Max, UInt32.toNat_zero, false_or, or_false]
      omega
    · simp only [covers_cons, covers_nil, toNat_u32One, toNat_u32Max]; omega
  · have hne := ht.ne_nil (by omega)
    obtain ⟨pos, core', hg, hpos, hfree, hiff, hi', ht'⟩ := getFree_core hi ht hc
    have hne' : core' ≠ [] := ht'.ne_nil (by have := pos.toNat_lt; omega)
    have hget : getFree (core ++ if d then [lastRun] else []) 1 =
        some (pos, core' ++ if d then [lastRun] else []) := by
      cases d
      · simpa using hg
      · show getFree (core ++ [lastRun]) 1 = some (pos, core' ++ [lastRun])
        rw [getFree_append_lastRun hi ht hc, hg]; rfl
    refine ⟨pos, _, hget, hpos, (isFree_core hne d _).2 hfree, fun p hp => ?_, by simp [hne'],
      .inr ⟨core', hi', ht', rfl⟩⟩
    rw [isFree_core hne' d, isFree_core hne d]
    exact hiff p hp

/-- `add_free(b, 1)` of a block in use, while another block stays in use, keeps the shape and adds
the block to the free blocks unless it is block `2^32 - 1`. -/
theorem addFree_shape {m : FreeMap} {c : Nat} {d : Bool} (h : FreeShape m c d) (hc : c < 2 ^ 32)
    {b : UInt32} (hb : ¬ IsFree m b.toNat) (hq : ∃ q < 2 ^ 32, ¬ IsFree m q ∧ q ≠ b.toNat) :
    FreeShape (addFree m b 1) c d ∧
      ∀ p, IsFree (addFree m b 1) p ↔ IsFree m p ∨ (p = b.toNat ∧ p < 2 ^ 32 - 1) := by
  rcases h with ⟨rfl, -⟩ | ⟨core, hi, ht, rfl⟩
  · exact absurd (.inl rfl) hb
  have hne := ht.ne_nil hc
  rw [isFree_core hne] at hb
  have hq' : ∃ q < 2 ^ 32, ¬ IsFree core q ∧
      ¬ (b.toNat ≤ q ∧ q < b.toNat + (1 : UInt32).toNat) := by
    obtain ⟨q, hq, hqf, hqb⟩ := hq
    exact ⟨q, hq, by rwa [isFree_core hne] at hqf, by rw [toNat_u32One]; omega⟩
  have hb1 : b.toNat + (1 : UInt32).toNat ≤ 2 ^ 32 := by
    rw [toNat_u32One]; have := b.toNat_lt; omega
  have hfree : ∀ p, b.toNat ≤ p → p < b.toNat + (1 : UInt32).toNat → ¬ IsFree core p :=
    fun p h₁ h₂ => by rw [toNat_u32One] at h₂; rwa [show p = b.toNat by omega]
  have hiff : ∀ p, IsFree (addFree core b 1) p ↔ IsFree core p ∨ (p = b.toNat ∧ p < 2 ^ 32 - 1) :=
    fun p => by
      rw [isFree_addFree hi hb1 hfree hq' p, toNat_u32One]
      exact or_congr_right ⟨fun h => ⟨by omega, h.2.2⟩, fun h => ⟨by omega, by omega, h.2⟩⟩
  have hne' := addFree_ne_nil hne b 1
  have heq : addFree (core ++ if d then [lastRun] else []) b 1 =
      addFree core b 1 ++ if d then [lastRun] else [] := by
    cases d
    · simp
    · exact addFree_append_lastRun 1 (lt_key_of_tail hi ht hc fun h => hb (.inr h))
  rw [heq]
  refine ⟨.inr ⟨_, freeInv_addFree hi hb1 hfree, fun p hp hp' => ?_, rfl⟩, fun p => ?_⟩
  · exact (isFree_of_ne_nil hne' p).1 ((hiff p).2 (.inl (.inr (ht p hp hp'))))
  · rw [isFree_core hne', isFree_core hne, hiff]

/-- `add_free(2^32 - 1, 1)`, the free of `m_lastf` before any terminator, appends the empty run
`(2^32 - 1, 0)` and frees nothing. -/
theorem addFree_max {m : FreeMap} {c : Nat} (hm : FreeInv m) (ht : Tail m c)
    (hc : c < 2 ^ 32 - 1) : addFree m 0xFFFFFFFF 1 = m ++ [lastRun] := by
  obtain ⟨e, he, -, hend⟩ := tail_run hm ht (by omega)
  have hlt : ∀ x ∈ m, decide (x.1 < (0xFFFFFFFF : UInt32)) = true := fun x hx => by
    have := key_le_of_tail hm ht hx
    simp only [decide_eq_true_eq, UInt32.lt_iff_toNat_lt, toNat_u32Max]; omega
  have hwrap : ¬ (0xFFFFFFFF : UInt32) ≤ e.1 + e.2 := by
    rw [UInt32.le_iff_toNat_le, UInt32.toNat_add, hend]; decide
  simp only [addFree, List.takeWhile_eq_self_iff.2 hlt, List.dropWhile_eq_nil_iff.2 hlt,
    emplaceAt, getLast?_of_end hm he hend, if_neg hwrap, if_neg (by decide : (1 : UInt32) ≠ 0)]
  rfl

theorem addFree_max_shape {m : FreeMap} {c : Nat} (h : FreeShape m c false) (hm : m ≠ [])
    (hc : c < 2 ^ 32 - 1) :
    FreeShape (addFree m 0xFFFFFFFF 1) c true ∧
      ∀ p, IsFree (addFree m 0xFFFFFFFF 1) p ↔ IsFree m p := by
  rcases h with ⟨rfl, -⟩ | ⟨core, hi, ht, rfl⟩
  · exact absurd rfl hm
  rw [if_neg Bool.false_ne_true, List.append_nil] at hm ⊢
  rw [addFree_max hi ht hc]
  exact ⟨.inr ⟨core, hi, ht, rfl⟩, isFree_append_lastRun hm⟩

end Todokanai.Ssdb
