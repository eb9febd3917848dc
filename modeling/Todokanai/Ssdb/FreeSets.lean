import Todokanai.Ssdb.FreeRuns

/-!
# `free_space` refines a set of free blocks

Read over `ℕ`, a map denotes the blocks `IsFree m`: every block when it is empty, else the blocks
its runs cover. On the maps that the allowed calls reach, `add_free` and `get_free` are union and
difference on that set, as long as some block stays in use. That proviso is needed:
`addFree_merge_wraps_to_empty` frees the last block in use, the merged run holds `2^32` blocks,
its `uint32` length is `0`, and the map denotes no free block at all.

* `covers_mergeNext`, `covers_addFree`: the blocks a map covers after the last step of
  `add_free` and after `add_free`.
* `isFree_addFree`, `isFree_getFree`, `getFree_eq_none`: `add_free` adds its run but block
  `2^32 - 1`, `get_free(n)` takes `n` free blocks, and throws only when no `n` consecutive blocks
  are free.
* `Refines`, `free_space_refines`: the three together, for every map reached by allowed calls.

Source: `src/src/util/ssdb.cpp`, `free_space::add_free` (lines 43–87) and
`free_space::get_free` (lines 89–147).
-/

namespace Todokanai.Ssdb

/-! ### `add_free` -/

/-- `mergeNext` adds the run `[S, S + Ln)` to what the entries after it cover, as long as some
block stays outside both. -/
theorem covers_mergeNext {S Ln : UInt32} {hi : FreeMap} (hinv : FreeInv hi)
    (hend : S.toNat + Ln.toNat < 2 ^ 32) (hle : ∀ e ∈ hi, S.toNat + Ln.toNat ≤ e.1.toNat)
    (hq : ∃ q < 2 ^ 32, ¬ (S.toNat ≤ q ∧ q < S.toNat + Ln.toNat) ∧ ¬ Covers hi q) (p : Nat) :
    Covers (mergeNext S Ln hi) p ↔ (S.toNat ≤ p ∧ p < S.toNat + Ln.toNat) ∨ Covers hi p := by
  have hSL : (S + Ln).toNat = S.toNat + Ln.toNat := UInt32.toNat_add_of_lt hend
  cases hi with
  | nil => simp [mergeNext]
  | cons e hi =>
    obtain ⟨s', l'⟩ := e
    have hs' := hle _ (List.mem_cons_self _ _)
    have hend' := hinv.ends _ (List.mem_cons_self _ _)
    dsimp only at hs' hend'
    dsimp only [mergeNext]
    split_ifs with hm
    · -- the next run starts where this one ends: they merge
      rw [UInt32.le_iff_toNat_le, hSL] at hm
      have hgap : S + Ln - s' = 0 := by
        rw [UInt32.eq_iff_toNat_eq, UInt32.toNat_sub_of_le' (by omega), hSL]
        simp only [UInt32.toNat_zero]; omega
      rw [hgap, sub_zero]
      have hw : Ln.toNat + l'.toNat < 2 ^ 32 := by
        by_contra hw
        obtain ⟨q, hq, hq₁, hq₂⟩ := hq
        exact hq₂ ((covers_cons _ _ q).mpr (.inl ⟨by dsimp only; omega, by dsimp only; omega⟩))
      rw [covers_cons, covers_cons, UInt32.toNat_add_of_lt hw]
      dsimp only
      by_cases hc : Covers hi p
      · simp only [hc, or_true]
      · simp only [hc, or_false]; omega
    · simp only [covers_cons]

/-- `add_free(block, count)` of blocks that are not free adds them, but for block `2^32 - 1`, to the
blocks the map covers, as long as some block stays outside both. -/
theorem covers_addFree {m : FreeMap} {b n : UInt32} (hm : FreeInv m)
    (hb : b.toNat + n.toNat ≤ 2 ^ 32)
    (hfree : ∀ p, b.toNat ≤ p → p < b.toNat + n.toNat → ¬ Covers m p)
    (hq : ∃ q < 2 ^ 32, ¬ Covers m q ∧ ¬ (b.toNat ≤ q ∧ q < b.toNat + n.toNat)) (p : Nat) :
    Covers (addFree m b n) p ↔
      Covers m p ∨ (b.toNat ≤ p ∧ p < b.toNat + n.toNat ∧ p < 2 ^ 32 - 1) := by
  unfold addFree
  split_ifs with hn0
  · have : n.toNat = 0 := by rw [hn0]; rfl
    exact ⟨.inl, fun h => h.resolve_right (by omega)⟩
  have hn : 1 ≤ n.toNat := by
    rw [UInt32.eq_iff_toNat_eq] at hn0; simp only [UInt32.toNat_zero] at hn0; omega
  -- every run that holds a block lies before or after `[b, b + n)`
  have houtside : ∀ e ∈ m, 1 ≤ e.2.toNat →
      e.1.toNat + e.2.toNat ≤ b.toNat ∨ b.toNat + n.toNat ≤ e.1.toNat := by
    intro e he hl
    by_contra hno
    push_neg at hno
    exact hfree (max b.toNat e.1.toNat) (le_max_left _ _) (by omega)
      ⟨e, he, le_max_right _ _, by omega⟩
  obtain ⟨q, hq, hqm, hqb⟩ := hq
  -- the entries before `b` and from `b` on
  set lo := m.takeWhile (fun e => decide (e.1 < b)) with hlo_def
  set rest := m.dropWhile (fun e => decide (e.1 < b)) with hrest_def
  have hm_eq : m = lo ++ rest := (List.takeWhile_append_dropWhile _ _).symm
  have hloInv : FreeInv lo := hm.sublist (List.takeWhile_prefix _).sublist
  have hrestInv : FreeInv rest := hm.sublist (List.dropWhile_suffix _).sublist
  have hrest_ge : ∀ e ∈ rest, b.toNat ≤ e.1.toNat := le_keys_of_head hrestInv.apart fun e he => by
    have hne : rest ≠ [] := by rintro h; rw [h] at he; cases he
    have := List.head_dropWhile_not (fun e => decide (e.1 < b)) m hne
    rw [List.head?_eq_head hne, Option.mem_def, Option.some.injEq] at he
    rw [he] at this
    simpa [UInt32.lt_iff_toNat_lt] using this
  have hlo_lt : ∀ e ∈ lo, e.1.toNat < b.toNat := fun e he => by
    simpa [UInt32.lt_iff_toNat_lt] using List.mem_takeWhile_imp he
  -- `emplace`: the entries after `b`, which cover what `rest` covers, and the length it finds
  rcases he : emplaceAt b n rest with ⟨len0, hi⟩
  have hspec := emplaceAt_spec b n rest
  rw [he] at hspec
  obtain ⟨hlen0, hsub, hhi_gt, hcov⟩ : len0.toNat ≤ n.toNat ∧ List.Sublist hi rest ∧
      (∀ e ∈ hi, b.toNat < e.1.toNat) ∧ ∀ p, Covers rest p ↔ Covers hi p := by
    rcases hspec with hr | ⟨hl, hh, hk⟩
    · dsimp only at hr
      have hmem : (b, len0) ∈ m := (List.dropWhile_suffix _).subset (hr ▸ List.mem_cons_self _ _)
      have h0 : len0.toNat = 0 := by
        by_contra h0
        rcases houtside _ hmem (by dsimp only; omega) with h | h <;> dsimp only at h <;> omega
      have hcons := freeInv_cons.mp (hr ▸ hrestInv)
      refine ⟨by omega, hr ▸ List.sublist_cons_self _ _, fun e he => ?_, fun p => ?_⟩
      · have := hcons.1 e he; unfold Apart at this; dsimp only at this; omega
      · rw [hr, covers_cons]; dsimp only; exact ⟨fun h => h.resolve_left (by omega), .inr⟩
    · dsimp only at hl hh hk
      subst hl hh
      refine ⟨le_rfl, List.Sublist.refl _, le_keys_of_head hrestInv.apart fun e he' => ?_,
        fun _ => Iff.rfl⟩
      have := hrest_ge e (List.mem_of_mem_head? he')
      have := hk e he'
      rw [Ne, UInt32.eq_iff_toNat_eq] at this
      omega
  have hiInv : FreeInv hi := hrestInv.sublist hsub
  -- the clamped length `L`
  have hL : (clampLen b n len0).toNat = min n.toNat (2 ^ 32 - 1 - b.toNat) := by
    rw [clampLen_of_le hlen0, toNat_clampLen hb]
  have hbL : b.toNat + (clampLen b n len0).toNat < 2 ^ 32 := by
    rw [hL]; have := b.toNat_lt; omega
  have hL2 : ∀ p, (b.toNat ≤ p ∧ p < b.toNat + (clampLen b n len0).toNat) ↔
      (b.toNat ≤ p ∧ p < b.toNat + n.toNat ∧ p < 2 ^ 32 - 1) := fun p => by
    rw [hL]; constructor <;> intro h <;> omega
  have hqL : ¬ (b.toNat ≤ q ∧ q < b.toNat + (clampLen b n len0).toNat) := fun h =>
    hqb ⟨((hL2 q).mp h).1, ((hL2 q).mp h).2.1⟩
  have hhiL : ∀ e ∈ hi, b.toNat + (clampLen b n len0).toNat ≤ e.1.toNat := by
    intro e heh
    have hem : e ∈ m := (List.dropWhile_suffix _).subset (hsub.subset heh)
    have hgt := hhi_gt e heh
    rcases Nat.eq_zero_or_pos e.2.toNat with h0 | h0
    · rcases hm.empty_run e hem (UInt32.eq_iff_toNat_eq.mpr h0) with rfl | rfl
      · exact absurd hgt (by simp)
      · rw [hL]; dsimp only; rw [toNat_u32Max]; omega
    · rcases houtside e hem h0 with h | h
      · omega
      · rw [hL]; omega
  have hqhi : ¬ Covers hi q := fun h =>
    hqm (hm_eq ▸ (covers_append _ _ q).mpr (.inr ((hcov q).mpr h)))
  have hqlo : ¬ Covers lo q := fun h => hqm (hm_eq ▸ (covers_append _ _ q).mpr (.inl h))
  have hcm : Covers m p ↔ Covers lo p ∨ Covers hi p := by rw [hm_eq, covers_append, hcov]
  rw [hcm]
  -- the entry before `b`, if any
  dsimp only
  rcases hlast : lo.getLast? with _ | ⟨s, l⟩
  · have hlo : lo = [] := List.getLast?_eq_none_iff.mp hlast
    dsimp only
    rw [covers_mergeNext hiInv hbL hhiL ⟨q, hq, hqL, hqhi⟩, hlo, hL2]
    simp only [covers_nil, false_or]
    exact or_comm
  · obtain ⟨lo', hlo'⟩ := List.getLast?_eq_some_iff.mp hlast
    have hsl_mem : (s, l) ∈ lo := by
      rw [hlo']; exact List.mem_append_right _ (List.mem_singleton_self _)
    have hs := hlo_lt _ hsl_mem
    dsimp only at hs
    have hsl : s.toNat + l.toNat ≤ b.toNat := by
      rcases Nat.eq_zero_or_pos l.toNat with h0 | h0
      · omega
      · rcases houtside _ ((List.takeWhile_prefix _).subset hsl_mem) h0 with h | h <;>
          dsimp only at h <;> omega
    have hsl_nat : (s + l).toNat = s.toNat + l.toNat := UInt32.toNat_add_of_lt (by omega)
    have hqsl : ¬ (s.toNat ≤ q ∧ q < s.toNat + l.toNat) := fun h =>
      hqlo ⟨(s, l), hsl_mem, h⟩
    have hqb' : ¬ (b.toNat ≤ q ∧ q < b.toNat + n.toNat ∧ q < 2 ^ 32 - 1) := fun h =>
      hqb ⟨h.1, h.2.1⟩
    have hclo : Covers lo p ↔ Covers lo' p ∨ (s.toNat ≤ p ∧ p < s.toNat + l.toNat) := by
      rw [hlo', covers_append, covers_cons]; simp
    rw [hclo]
    dsimp only
    split_ifs with hmerge
    · -- `(s, l)` ends at `b`: the freed run extends it
      rw [UInt32.le_iff_toNat_le, hsl_nat] at hmerge
      have hgap : s + l - b = 0 := by
        rw [UInt32.eq_iff_toNat_eq, UInt32.toNat_sub_of_le' (by omega), hsl_nat, UInt32.toNat_zero]
        omega
      rw [hgap, sub_zero]
      have hlL : (l + clampLen b n len0).toNat = l.toNat + (clampLen b n len0).toNat :=
        UInt32.toNat_add_of_lt (by omega)
      have hend : s.toNat + (l + clampLen b n len0).toNat < 2 ^ 32 := by rw [hlL]; omega
      have hsplit : ∀ p, (s.toNat ≤ p ∧ p < s.toNat + (l + clampLen b n len0).toNat) ↔
          (s.toNat ≤ p ∧ p < s.toNat + l.toNat) ∨
            (b.toNat ≤ p ∧ p < b.toNat + n.toNat ∧ p < 2 ^ 32 - 1) := fun p => by
        rw [← hL2, hlL]; constructor <;> intro h <;> omega
      rw [hlo', List.dropLast_concat, covers_append, covers_mergeNext hiInv hend
        (fun e he => by rw [hlL]; have := hhiL e he; omega)
        ⟨q, hq, fun h => ((hsplit q).mp h).elim hqsl hqb', hqhi⟩, hsplit]
      simp only [or_assoc]
      exact or_congr_right (or_congr_right or_comm)
    · -- a gap remains before `b`
      rw [covers_append, covers_mergeNext hiInv hbL hhiL ⟨q, hq, hqL, hqhi⟩, hclo, hL2]
      simp only [or_assoc]
      exact or_congr_right (or_congr_right or_comm)

/-! ### `get_free` -/

/-- `get_free(count)` for `count ≥ 1` returns the start of `count` free blocks, takes them out of
the free blocks and leaves the others. -/
theorem isFree_getFree {m m' : FreeMap} {count pos : UInt32} (hm : FreeInv m)
    (hc : 1 ≤ count.toNat) (h : getFree m count = some (pos, m')) :
    (∀ p, pos.toNat ≤ p → p < pos.toNat + count.toNat → IsFree m p) ∧ m' ≠ [] ∧
      ∀ p, p < 2 ^ 32 →
        (IsFree m' p ↔ IsFree m p ∧ ¬ (pos.toNat ≤ p ∧ p < pos.toNat + count.toNat)) := by
  cases hb : bestFit count none m with
  | none =>
    simp only [getFree, hb] at h
    split_ifs at h with hnil h0
    · rw [h0] at hc; exact absurd hc (by decide)
    rw [Option.some.injEq, Prod.mk.injEq] at h
    obtain ⟨rfl, rfl⟩ := h
    have hlt := count.toNat_lt
    have hsub : (0 - count).toNat = 2 ^ 32 - count.toNat := by
      rw [UInt32.toNat_sub]; simp only [UInt32.toNat_zero, UInt32.size] at hlt ⊢; omega
    refine ⟨fun _ _ _ => .inl hnil, List.cons_ne_nil _ _, fun p hp => ?_⟩
    simp only [IsFree, hnil, true_or, true_and, covers_cons, covers_nil, or_false, hsub,
      List.cons_ne_nil, false_or, UInt32.toNat_zero]
    omega
  | some r =>
    obtain ⟨lo, hi, rfl, h₁, -, hg⟩ := getFree_split hm.apart hm.ends hb
    rw [hg, Option.some.injEq, Prod.mk.injEq] at h
    obtain ⟨rfl, rfl⟩ := h
    obtain ⟨hklo, hkhi⟩ := keys_around hm.apart
    have hr := hm.ends r (List.mem_append_right _ (List.mem_cons_self _ _))
    have hne : lo ++ r :: hi ≠ [] := by simp
    -- the blocks of `lo` and `hi` lie outside `r`
    have hlo : ∀ p, Covers lo p → p < r.1.toNat := fun p ⟨e, he, _, hp⟩ => by
      have := hklo e he; omega
    have hhi : ∀ p, Covers hi p → r.1.toNat + r.2.toNat < p := fun p ⟨e, he, hp, _⟩ => by
      have := hkhi e he; omega
    refine ⟨fun p hp hp' => (isFree_of_ne_nil hne p).mpr
      ((covers_append _ _ p).mpr (.inr ((covers_cons _ _ p).mpr (.inl ⟨hp, by omega⟩)))),
      ?_, fun p _ => ?_⟩
    · split_ifs <;> simp_all
    rw [isFree_of_ne_nil hne, covers_append, covers_cons]
    split_ifs with hlt hnil
    · have hpos : (r.1 + count).toNat = r.1.toNat + count.toNat :=
        UInt32.toNat_add_of_lt (by omega)
      have hdiff : (r.2 - count).toNat = r.2.toNat - count.toNat := UInt32.toNat_sub_of_le' h₁
      simp only [isFree_of_ne_nil (show lo ++ (r.1 + count, r.2 - count) :: hi ≠ [] by simp),
        covers_append, covers_cons, hpos, hdiff]
      constructor
      · rintro (hl | hrun | hh)
        · exact ⟨.inl hl, fun _ => by have := hlo p hl; omega⟩
        · exact ⟨.inr (.inl ⟨by omega, by omega⟩), fun _ => by omega⟩
        · exact ⟨.inr (.inr hh), fun _ => by have := hhi p hh; omega⟩
      · rintro ⟨hl | hrun | hh, hn⟩
        · exact .inl hl
        · exact .inr (.inl ⟨by omega, by omega⟩)
        · exact .inr (.inr hh)
    · obtain ⟨rfl, rfl⟩ := List.append_eq_nil.mp hnil
      simp only [IsFree, List.cons_ne_nil, covers_cons, covers_nil, false_or, or_false]
      simp only [UInt32.toNat_zero]; omega
    · rw [isFree_of_ne_nil hnil, covers_append]
      constructor
      · rintro (hl | hh)
        · exact ⟨.inl hl, fun _ => by have := hlo p hl; omega⟩
        · exact ⟨.inr (.inr hh), fun _ => by have := hhi p hh; omega⟩
      · rintro ⟨hl | hrun | hh, hn⟩
        · exact .inl hl
        · exact absurd ⟨hrun.1, by omega⟩ hn
        · exact .inr hh

theorem mergeNext_ne_nil (S Ln : UInt32) (hi : FreeMap) : mergeNext S Ln hi ≠ [] := by
  cases hi with
  | nil => exact List.cons_ne_nil _ _
  | cons e hi =>
    obtain ⟨s', l'⟩ := e
    dsimp only [mergeNext]
    split_ifs <;> exact List.cons_ne_nil _ _

theorem addFree_ne_nil {m : FreeMap} (hm : m ≠ []) (b n : UInt32) : addFree m b n ≠ [] := by
  unfold addFree
  split_ifs
  · exact hm
  · dsimp only
    split
    · split_ifs <;> simp [mergeNext_ne_nil]
    · exact mergeNext_ne_nil _ _ _

/-- `add_free(block, count)` of blocks that are not free frees them, but for block `2^32 - 1`, as
long as some block stays in use. -/
theorem isFree_addFree {m : FreeMap} {b n : UInt32} (hm : FreeInv m)
    (hb : b.toNat + n.toNat ≤ 2 ^ 32)
    (hfree : ∀ p, b.toNat ≤ p → p < b.toNat + n.toNat → ¬ IsFree m p)
    (hq : ∃ q < 2 ^ 32, ¬ IsFree m q ∧ ¬ (b.toNat ≤ q ∧ q < b.toNat + n.toNat)) (p : Nat) :
    IsFree (addFree m b n) p ↔
      IsFree m p ∨ (b.toNat ≤ p ∧ p < b.toNat + n.toNat ∧ p < 2 ^ 32 - 1) := by
  obtain ⟨q, hq, hqm, hqb⟩ := hq
  have hne : m ≠ [] := fun h => hqm (.inl h)
  rw [isFree_of_ne_nil (addFree_ne_nil hne b n), isFree_of_ne_nil hne]
  exact covers_addFree hm hb (fun p h₁ h₂ h => hfree p h₁ h₂ (.inr h))
    ⟨q, hq, fun h => hqm (.inr h), hqb⟩ p

/-- Blocks `p, p + 1, …` that are all free lie in the run of `p`. -/
theorem add_le_of_covers {m : FreeMap} (hm : FreeInv m) {e : UInt32 × UInt32} (he : e ∈ m)
    {p : Nat} (hp : e.1.toNat ≤ p ∧ p < e.1.toNat + e.2.toNat) :
    ∀ n, (∀ j < n, Covers m (p + j)) → p + n ≤ e.1.toNat + e.2.toNat
  | 0, _ => by omega
  | n + 1, h => by
    have ih := add_le_of_covers hm he hp n fun j hj => h j (by omega)
    obtain ⟨e', he', h₁, h₂⟩ := h n (by omega)
    by_cases hee : e = e'
    · subst hee; omega
    · have hap := (hm.apart.imp fun h => Or.inl h).forall
        (fun _ _ h => h.symm) he he' hee
      unfold Apart at hap
      omega

/-- `get_free(count)` throws only when no `count` consecutive blocks are free. -/
theorem getFree_eq_none {m : FreeMap} {count : UInt32} (hm : FreeInv m)
    (h : getFree m count = none) (p : Nat) : ¬ ∀ j < count.toNat, IsFree m (p + j) := by
  intro hall
  cases hb : bestFit count none m with
  | none =>
    simp only [getFree, hb] at h
    split_ifs at h with hnil
    have hshort := (bestFit_eq_none hb).2
    obtain ⟨e, he, hp⟩ := (isFree_of_ne_nil hnil p).mp (hall 0 (by
      obtain ⟨x, hx⟩ := List.exists_mem_of_ne_nil m hnil
      have := hshort x hx; omega))
    have := add_le_of_covers hm he hp count.toNat fun j hj =>
      (isFree_of_ne_nil hnil _).mp (hall j hj)
    have := hshort e he
    omega
  | some r =>
    simp only [getFree, hb] at h
    split_ifs at h

/-! ### The refinement -/

/-- `m_free` refines the set of free blocks `IsFree m`. -/
structure Refines (m : FreeMap) : Prop where
  /-- `add_free(b, n)` of blocks in use, `b + n ≤ 2^32`, adds `[b, min (b + n) (2^32 - 1))` when
  some block stays in use. -/
  addFree_iff : ∀ b n : UInt32, b.toNat + n.toNat ≤ 2 ^ 32 →
    (∀ p, b.toNat ≤ p → p < b.toNat + n.toNat → ¬ IsFree m p) →
    (∃ q < 2 ^ 32, ¬ IsFree m q ∧ ¬ (b.toNat ≤ q ∧ q < b.toNat + n.toNat)) →
    ∀ p, IsFree (addFree m b n) p ↔
      IsFree m p ∨ (b.toNat ≤ p ∧ p < b.toNat + n.toNat ∧ p < 2 ^ 32 - 1)
  /-- `get_free(n)`, `n ≥ 1`, returns the start of `n` free blocks and takes them out. -/
  getFree_some : ∀ (n pos : UInt32) (m' : FreeMap), 1 ≤ n.toNat → getFree m n = some (pos, m') →
    (∀ p, pos.toNat ≤ p → p < pos.toNat + n.toNat → IsFree m p) ∧
    ∀ p < 2 ^ 32, IsFree m' p ↔ IsFree m p ∧ ¬ (pos.toNat ≤ p ∧ p < pos.toNat + n.toNat)
  /-- `get_free(n)` throws only when no `n` consecutive blocks are free. -/
  getFree_none : ∀ n : UInt32, getFree m n = none → ∀ p, ¬ ∀ j < n.toNat, IsFree m (p + j)

/-- Every map that `add_free` and `get_free` reach from the empty map or from the map `reload`
starts with refines the set of free blocks, for calls that keep some block in use. -/
theorem free_space_refines {m : FreeMap} (hm : FreeReachable m) : Refines m :=
  have hinv := freeInv_of_reachable hm
  ⟨fun _ _ hb hfree hq p => isFree_addFree hinv hb hfree hq p,
   fun _ _ _ hn hg => ⟨(isFree_getFree hinv hn hg).1, (isFree_getFree hinv hn hg).2.2⟩,
   fun _ hg p => getFree_eq_none hinv hg p⟩

/-- The map that `get_free(2^32 - 1)` and `add_free(5, 1)` leave from `{(0, 2^32 - 1)}`. -/
theorem free_space_refines_after_calls :
    FreeReachable [(0, 0), (5, 1)] ∧ Refines [(0, 0), (5, 1)] :=
  ⟨reachable_dummy_and_run, free_space_refines reachable_dummy_and_run⟩

end Todokanai.Ssdb
