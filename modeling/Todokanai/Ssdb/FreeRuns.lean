import Todokanai.Ssdb.FreeSpace

/-!
# The runs of `free_space`: best fit and the representation invariant

Read over `ℕ`, the entries of `m_free` are runs `[s, s + l)`. Every map that `add_free` and
`get_free` reach from the empty map or from the map `reload` starts with keeps three facts: each run
ends before the next one starts with a free gap between them, each ends at or below `2^32`, and
the only empty runs are `(0, 0)`, the dummy of `get_free`, and `(2^32 - 1, 0)`, left by freeing
block `2^32 - 1`, which `add_free` clamps away. The dummy does not stay alone: a later `add_free`
inserts runs after it.

On such maps `get_free(n)` is best fit. It returns the start of the first of the shortest runs of
at least `n` blocks and cuts `n` blocks from its front. The bound on the ends matters: on a map
with a run that ends past `2^32`, the remaining fragment `s + n` wraps in `uint32` onto a key that
is already there, and `emplace` drops it.

* `Apart`, `FreeInv`: two consecutive entries with a gap between them; the invariant.
* `bestFit_spec`, `getFree_split`: the scan of `get_free` and its result.
* `mergeNext_inv`, `freeInv_addFree`, `freeInv_getFree`: the steps keep the invariant.
* `FreeReachable`: the maps reached by allowed calls; `free_space_invariant` is the invariant over
  them.
* `getFree_best_fit`: `get_free` on a map of apart runs that end at or below `2^32`.

Source: `src/src/util/ssdb.cpp`, `free_space::add_free` (lines 43–87) and
`free_space::get_free` (lines 89–147).
-/

namespace Todokanai.Ssdb

/-- The run of `e` ends, with at least one block to spare, before the run of `e'` starts. -/
def Apart (e e' : UInt32 × UInt32) : Prop :=
  e.1.toNat + e.2.toNat < e'.1.toNat

instance : DecidableRel Apart := fun _ _ => Nat.decLt _ _

instance : IsTrans (UInt32 × UInt32) Apart :=
  ⟨fun _ _ _ h h' => by unfold Apart at *; omega⟩

/-- The representation invariant of `m_free`. -/
structure FreeInv (m : FreeMap) : Prop where
  apart : m.Pairwise Apart
  ends : ∀ e ∈ m, e.1.toNat + e.2.toNat ≤ 2 ^ 32
  empty_run : ∀ e ∈ m, e.2 = 0 → e = (0, 0) ∨ e = (0xFFFFFFFF, 0)

theorem FreeInv.nil : FreeInv [] :=
  ⟨List.Pairwise.nil, nofun, nofun⟩

theorem FreeInv.sublist {m m' : FreeMap} (h : List.Sublist m' m) (hm : FreeInv m) : FreeInv m' :=
  ⟨hm.apart.sublist h, fun e he => hm.ends e (h.subset he),
    fun e he => hm.empty_run e (h.subset he)⟩

theorem freeInv_cons {x : UInt32 × UInt32} {m : FreeMap} :
    FreeInv (x :: m) ↔ (∀ e ∈ m, Apart x e) ∧ x.1.toNat + x.2.toNat ≤ 2 ^ 32 ∧
      (x.2 = 0 → x = (0, 0) ∨ x = (0xFFFFFFFF, 0)) ∧ FreeInv m := by
  constructor
  · intro h
    exact ⟨(List.pairwise_cons.mp h.apart).1, h.ends x (List.mem_cons_self _ _),
      h.empty_run x (List.mem_cons_self _ _),
      h.sublist (List.sublist_cons_self _ _)⟩
  · rintro ⟨ha, he, hz, hm⟩
    refine ⟨List.pairwise_cons.mpr ⟨ha, hm.apart⟩, ?_, ?_⟩ <;>
      rintro e (_ | ⟨_, h⟩)
    exacts [he, hm.ends e h, hz, hm.empty_run e h]

theorem freeInv_singleton {x : UInt32 × UInt32} (he : x.1.toNat + x.2.toNat ≤ 2 ^ 32)
    (hz : x.2 = 0 → x = (0, 0) ∨ x = (0xFFFFFFFF, 0)) : FreeInv [x] :=
  freeInv_cons.mpr ⟨nofun, he, hz, FreeInv.nil⟩

/-- A prefix whose runs all end before `x` starts goes in front of `x :: rest`. -/
theorem freeInv_append_cons {lo rest : FreeMap} {x : UInt32 × UInt32} (hlo : FreeInv lo)
    (hx : FreeInv (x :: rest)) (h : ∀ e ∈ lo, e.1.toNat + e.2.toNat < x.1.toNat) :
    FreeInv (lo ++ x :: rest) := by
  have hafter : ∀ e ∈ lo, ∀ y ∈ x :: rest, Apart e y := by
    rintro e he y (_ | ⟨_, hy⟩)
    · exact h e he
    · have := (freeInv_cons.mp hx).1 y hy
      unfold Apart at this ⊢; have := h e he; omega
  refine ⟨List.pairwise_append.mpr ⟨hlo.apart, hx.apart, hafter⟩, ?_, ?_⟩ <;>
    intro e he <;> rcases List.mem_append.mp he with he | he
  exacts [hlo.ends e he, hx.ends e he, hlo.empty_run e he, hx.empty_run e he]

/-- The keys of a map of apart runs around one of its entries. -/
theorem keys_around {lo hi : FreeMap} {r : UInt32 × UInt32} (h : (lo ++ r :: hi).Pairwise Apart) :
    (∀ e ∈ lo, e.1.toNat + e.2.toNat < r.1.toNat) ∧
      ∀ e ∈ hi, r.1.toNat + r.2.toNat < e.1.toNat := by
  obtain ⟨-, hr, hlo⟩ := List.pairwise_append.mp h
  exact ⟨fun e he => hlo e he r (List.mem_cons_self _ _), (List.pairwise_cons.mp hr).1⟩

/-- In a map of apart runs, a bound below the first key bounds every key. -/
theorem le_keys_of_head {l : FreeMap} {k : Nat} (hl : l.Pairwise Apart)
    (h : ∀ e ∈ l.head?, k ≤ e.1.toNat) : ∀ e ∈ l, k ≤ e.1.toNat := by
  cases l with
  | nil => exact nofun
  | cons x l =>
    have hx := h x rfl
    rintro e (_ | ⟨_, he⟩)
    · exact hx
    · have := (List.pairwise_cons.mp hl).1 e he; unfold Apart at this; omega

/-! ### Map primitives on apart runs -/

theorem eraseKey_split {lo hi : FreeMap} {r : UInt32 × UInt32}
    (h : (lo ++ r :: hi).Pairwise Apart) :
    eraseKey r.1 (lo ++ r :: hi) = lo ++ hi := by
  obtain ⟨hlo, hhi⟩ := keys_around h
  have hne (l : FreeMap) (hl : ∀ e ∈ l, e.1.toNat ≠ r.1.toNat) :
      l.filter (fun e => e.1 != r.1) = l :=
    List.filter_eq_self.mpr fun e he => bne_iff_ne.mpr fun heq => hl e he (by rw [heq])
  simp only [eraseKey, List.filter_append, List.filter_cons, bne_self_eq_false, Bool.false_eq_true,
    if_false]
  rw [hne lo fun e he => by have := hlo e he; omega, hne hi fun e he => by have := hhi e he; omega]

theorem emplace_between (k v : UInt32) {lo hi : FreeMap} (hlo : ∀ e ∈ lo, e.1.toNat < k.toNat)
    (hhi : ∀ e ∈ hi.head?, k.toNat < e.1.toNat) : emplace k v (lo ++ hi) = lo ++ (k, v) :: hi := by
  induction lo with
  | nil =>
    cases hi with
    | nil => rfl
    | cons e hi => simp only [List.nil_append, emplace, UInt32.lt_iff_toNat_lt, hhi e rfl, if_true]
  | cons e lo ih =>
    have hek := hlo e (List.mem_cons_self _ _)
    rw [List.cons_append, emplace, if_neg (by rw [UInt32.lt_iff_toNat_lt]; omega),
      if_neg (by rw [UInt32.eq_iff_toNat_eq]; omega),
      ih fun e he => hlo e (List.mem_cons_of_mem _ he),
      List.cons_append]

/-! ### The scan of `get_free` -/

/-- What the scan returns from the candidate `res`: a run of at least `count` blocks, the candidate
or an entry, no longer than the candidate or any entry of at least `count` blocks. -/
theorem bestFit_spec {count : UInt32} :
    ∀ {res : Option (UInt32 × UInt32)} {m : FreeMap} {r : UInt32 × UInt32},
      (∀ r₀ ∈ res, count.toNat ≤ r₀.2.toNat) → bestFit count res m = some r →
      count.toNat ≤ r.2.toNat ∧ (r ∈ res ∨ r ∈ m) ∧
        (∀ e ∈ m, count.toNat ≤ e.2.toNat → r.2.toNat ≤ e.2.toNat) ∧
        ∀ r₀ ∈ res, r.2.toNat ≤ r₀.2.toNat := by
  intro res m
  induction m generalizing res with
  | nil =>
    intro r hres h
    cases h
    exact ⟨hres r rfl, .inl rfl, nofun, fun r₀ h => by cases h; exact le_rfl⟩
  | cons e m ih =>
    intro r hres h
    obtain ⟨s, l⟩ := e
    -- `better`: the entry fits and beats the candidate
    have better : (count ≤ l ∧ res.all (fun r => l < r.2) = true) ↔
        count.toNat ≤ l.toNat ∧ ∀ r₀ ∈ res, l.toNat < r₀.2.toNat := by
      cases res <;> simp [UInt32.le_iff_toNat_le, UInt32.lt_iff_toNat_lt]
    simp only [bestFit] at h
    split_ifs at h with hfit hexact
    · cases h
      have hfit := better.mp hfit
      refine ⟨hfit.1, .inr (List.mem_cons_self _ _), ?_, fun r₀ hr₀ => (hfit.2 r₀ hr₀).le⟩
      rintro e - hle; rw [hexact]; exact hle
    · have hfit := better.mp hfit
      obtain ⟨h₁, h₂, h₃, h₄⟩ := ih (fun r₀ hr₀ => by cases hr₀; exact hfit.1) h
      have hl : r.2.toNat ≤ l.toNat := h₄ _ rfl
      refine ⟨h₁, .inr ?_, ?_, fun r₀ hr₀ => hl.trans (hfit.2 r₀ hr₀).le⟩
      · rcases h₂ with h₂ | h₂
        · cases h₂; exact List.mem_cons_self _ _
        · exact List.mem_cons_of_mem _ h₂
      · rintro e (_ | ⟨_, he⟩) hle
        exacts [hl, h₃ e he hle]
    · obtain ⟨h₁, h₂, h₃, h₄⟩ := ih hres h
      refine ⟨h₁, h₂.imp_right (List.mem_cons_of_mem _), ?_, h₄⟩
      rintro e (_ | ⟨_, he⟩) hle
      · obtain ⟨r₀, hr₀, hlt⟩ : ∃ r₀ ∈ res, r₀.2.toNat ≤ l.toNat := by
          by_contra hno
          push_neg at hno
          exact hfit (better.mpr ⟨hle, hno⟩)
        exact (h₄ r₀ hr₀).trans hlt
      · exact h₃ e he hle

/-- The scan replaces its candidate only by a strictly shorter entry. -/
theorem bestFit_some {count : UInt32} :
    ∀ {c r : UInt32 × UInt32} {m : FreeMap}, bestFit count (some c) m = some r →
      r = c ∨ r.2.toNat < c.2.toNat := by
  intro c r m
  induction m generalizing c with
  | nil => intro h; cases h; exact .inl rfl
  | cons e m ih =>
    intro h
    obtain ⟨s, l⟩ := e
    simp only [bestFit, Option.all_some, decide_eq_true_eq] at h
    split_ifs at h with hfit
    · cases h; exact .inr (UInt32.lt_iff_toNat_lt.1 hfit.2)
    · rcases ih h with rfl | hlt
      · exact .inr (UInt32.lt_iff_toNat_lt.1 hfit.2)
      · exact .inr (hlt.trans (UInt32.lt_iff_toNat_lt.1 hfit.2))
    · exact ih h

/-- The scan keeps the first of the shortest entries: an entry before the one it returns that is
long enough is strictly longer. -/
theorem bestFit_first {count : UInt32} {r : UInt32 × UInt32} {hi : FreeMap} :
    ∀ {lo : FreeMap} {res : Option (UInt32 × UInt32)}, bestFit count res (lo ++ r :: hi) = some r →
      r ∉ lo → (∀ r₀ ∈ res, r₀ ≠ r) →
      ∀ e ∈ lo, count.toNat ≤ e.2.toNat → r.2.toNat < e.2.toNat := by
  intro lo
  induction lo with
  | nil => intro _ _ _ _ e he; cases he
  | cons e lo ih =>
    intro res h hr hres e' he' hfit'
    have hne : e ≠ r := fun h => hr (h ▸ List.mem_cons_self _ _)
    have hr' : r ∉ lo := fun h => hr (List.mem_cons_of_mem _ h)
    obtain ⟨s, l⟩ := e
    rw [List.cons_append] at h
    simp only [bestFit] at h
    split_ifs at h with hfit
    · cases h; exact absurd rfl hne
    · -- `(s, l)` becomes the candidate
      rcases List.mem_cons.1 he' with rfl | he'
      · exact (bestFit_some h).resolve_left (Ne.symm hne)
      · exact ih h hr' (fun r₀ h₀ => by cases h₀; exact hne) e' he' hfit'
    · rcases List.mem_cons.1 he' with rfl | he'
      · -- `(s, l)` is long enough but does not beat the candidate
        cases res with
        | none => exact absurd ⟨UInt32.le_iff_toNat_le.2 hfit', rfl⟩ hfit
        | some r₀ =>
          have hle : r₀.2.toNat ≤ l.toNat := Nat.not_lt.1 fun hlt =>
            hfit ⟨UInt32.le_iff_toNat_le.2 hfit', by simpa [UInt32.lt_iff_toNat_lt] using hlt⟩
          have := (bestFit_some h).resolve_left fun h => hres r₀ rfl h.symm
          show r.2.toNat < l.toNat
          omega
      · exact ih h hr' hres e' he' hfit'

/-- The scan finds nothing only from no candidate and a map with no run of `count` blocks. -/
theorem bestFit_eq_none {count : UInt32} :
    ∀ {res : Option (UInt32 × UInt32)} {m : FreeMap}, bestFit count res m = none →
      res = none ∧ ∀ e ∈ m, e.2.toNat < count.toNat := by
  intro res m
  induction m generalizing res with
  | nil => intro h; exact ⟨h, nofun⟩
  | cons e m ih =>
    intro h
    obtain ⟨s, l⟩ := e
    simp only [bestFit] at h
    split_ifs at h with hfit
    · exact absurd (ih h).1 (Option.some_ne_none _)
    · obtain ⟨rfl, hm⟩ := ih h
      refine ⟨rfl, ?_⟩
      rintro e (_ | ⟨_, he⟩)
      · simp only [Option.all_none, and_true, UInt32.le_iff_toNat_le, not_le] at hfit
        exact hfit
      · exact hm e he

/-! ### `get_free` -/

/-- `get_free(count)` when the scan picks the entry `r` of a map of apart runs that end at or below
`2^32`: `r` is in the map, long enough and shortest, and it is cut, removed or replaced by the
dummy. -/
theorem getFree_split {m : FreeMap} {count : UInt32} {r : UInt32 × UInt32}
    (hm : m.Pairwise Apart) (hend : ∀ e ∈ m, e.1.toNat + e.2.toNat ≤ 2 ^ 32)
    (hb : bestFit count none m = some r) :
    ∃ lo hi, m = lo ++ r :: hi ∧ count.toNat ≤ r.2.toNat ∧
      (∀ e ∈ m, count.toNat ≤ e.2.toNat → r.2.toNat ≤ e.2.toNat) ∧
      getFree m count = some (r.1, if count.toNat < r.2.toNat then
        lo ++ (r.1 + count, r.2 - count) :: hi
        else if lo ++ hi = [] then [(0, 0)] else lo ++ hi) := by
  obtain ⟨h₁, h₂, h₃, -⟩ := bestFit_spec (fun _ h => by cases h) hb
  obtain ⟨lo, hi, rfl⟩ := List.append_of_mem (h₂.resolve_left (Option.not_mem_none _))
  refine ⟨lo, hi, rfl, h₁, h₃, ?_⟩
  obtain ⟨hlo, hhi⟩ := keys_around hm
  have hr := hend r (List.mem_append_right _ (List.mem_cons_self _ _))
  have hdiff : (r.2 - count).toNat = r.2.toNat - count.toNat := UInt32.toNat_sub_of_le' h₁
  simp only [getFree, hb, eraseKey_split hm]
  by_cases hlt : count.toNat < r.2.toNat
  · have hpos : (r.1 + count).toNat = r.1.toNat + count.toNat := UInt32.toNat_add_of_lt (by omega)
    rw [if_pos (by rw [Ne, UInt32.eq_iff_toNat_eq, hdiff]; simp only [UInt32.toNat_zero]; omega),
      if_pos hlt, emplace_between _ _ (fun e he => by have := hlo e he; omega)
        (fun e he => by have := hhi e (List.mem_of_mem_head? he); omega)]
  · rw [if_neg (by
      rw [not_not, UInt32.eq_iff_toNat_eq, hdiff]; simp only [UInt32.toNat_zero]; omega),
      if_neg hlt]

/-- `get_free(count)` for `count ≥ 1` keeps the invariant. -/
theorem freeInv_getFree {m m' : FreeMap} {count pos : UInt32} (hm : FreeInv m)
    (hc : 1 ≤ count.toNat) (h : getFree m count = some (pos, m')) : FreeInv m' := by
  cases hb : bestFit count none m with
  | none =>
    simp only [getFree, hb] at h
    split_ifs at h with hnil h0
    · rw [h0] at hc; exact absurd hc (by decide)
    rw [Option.some.injEq, Prod.mk.injEq] at h
    rw [← h.2]
    have hlt := count.toNat_lt
    have hsub : (0 - count).toNat = 2 ^ 32 - count.toNat := by
      rw [UInt32.toNat_sub]; simp only [UInt32.toNat_zero, UInt32.size] at hlt ⊢; omega
    exact freeInv_singleton (by dsimp only; omega)
      (fun h0 => by
        rw [UInt32.eq_iff_toNat_eq, hsub] at h0; simp only [UInt32.toNat_zero] at h0; omega)
  | some r =>
    obtain ⟨lo, hi, rfl, h₁, -, hg⟩ := getFree_split hm.apart hm.ends hb
    rw [hg, Option.some.injEq, Prod.mk.injEq] at h
    rw [← h.2]
    have hlo := hm.sublist (List.sublist_append_left lo (r :: hi))
    have hhi := (freeInv_cons.mp (hm.sublist (List.sublist_append_right lo (r :: hi)))).2.2.2
    have hlohi : FreeInv (lo ++ hi) :=
      hm.sublist (List.Sublist.append_left (List.sublist_cons_self r hi) lo)
    obtain ⟨hklo, hkhi⟩ := keys_around hm.apart
    have hr := hm.ends r (List.mem_append_right _ (List.mem_cons_self _ _))
    split_ifs with hlt hnil
    · have hpos : (r.1 + count).toNat = r.1.toNat + count.toNat := UInt32.toNat_add_of_lt (by omega)
      have hdiff : (r.2 - count).toNat = r.2.toNat - count.toNat := UInt32.toNat_sub_of_le' h₁
      refine freeInv_append_cons hlo (freeInv_cons.mpr ⟨fun e he => ?_, ?_, fun h0 => ?_, hhi⟩)
        (fun e he => by have := hklo e he; dsimp only; omega)
      · have := hkhi e he; unfold Apart; dsimp only; omega
      · dsimp only; omega
      · rw [UInt32.eq_iff_toNat_eq, hdiff] at h0; simp only [UInt32.toNat_zero] at h0; omega
    · exact freeInv_singleton (by decide) (fun _ => .inl rfl)
    · exact hlohi

/-! ### `add_free` -/

/-- `emplace` seen from `add_free`: it finds an entry at `block`, or inserts `count` in front of
entries with other keys. -/
theorem emplaceAt_spec (block count : UInt32) (rest : FreeMap) :
    rest = (block, (emplaceAt block count rest).1) :: (emplaceAt block count rest).2 ∨
      ((emplaceAt block count rest).1 = count ∧ (emplaceAt block count rest).2 = rest ∧
        ∀ e ∈ rest.head?, e.1 ≠ block) := by
  cases rest with
  | nil => exact .inr ⟨rfl, rfl, nofun⟩
  | cons e rest =>
    obtain ⟨k, l⟩ := e
    dsimp only [emplaceAt]
    split_ifs with h
    · exact .inl (by rw [h])
    · exact .inr ⟨rfl, rfl, fun e he => by cases he; exact h⟩

theorem toNat_u32Max : (0xFFFFFFFF : UInt32).toNat = 2 ^ 32 - 1 := rfl

/-- A length not above `count` is raised to `count` before the overflow check. -/
theorem clampLen_of_le {block count len : UInt32} (h : len.toNat ≤ count.toNat) :
    clampLen block count len = clampLen block count count := by
  unfold clampLen
  by_cases hlt : len < count
  · rw [if_pos hlt, if_neg (UInt32.lt_irrefl count)]
  · rw [if_neg hlt, if_neg (UInt32.lt_irrefl count)]
    rw [UInt32.lt_iff_toNat_lt] at hlt
    rw [UInt32.eq_iff_toNat_eq.mpr (by omega : len.toNat = count.toNat)]

/-- The clamped length of a run `[block, block + count)` that ends at or below `2^32`: cut to end
at `2^32 - 1`. -/
theorem toNat_clampLen {block count : UInt32} (h : block.toNat + count.toNat ≤ 2 ^ 32) :
    (clampLen block count count).toNat = min count.toNat (2 ^ 32 - 1 - block.toNat) := by
  unfold clampLen
  rw [if_neg (UInt32.lt_irrefl count)]
  dsimp only
  have hb := block.toNat_lt
  have hc := count.toNat_lt
  by_cases hw : block.toNat + count.toNat = 2 ^ 32
  · rw [if_pos (by rw [UInt32.lt_iff_toNat_lt, UInt32.toNat_add_of_le (by omega)]; omega),
      UInt32.toNat_sub_of_le' (by rw [toNat_u32Max]; omega), toNat_u32Max]
    omega
  · rw [if_neg (by rw [UInt32.lt_iff_toNat_lt, UInt32.toNat_add_of_lt (by omega)]; omega)]
    omega

/-- The last step of `add_free`: the run `(S, Ln)`, which ends below `2^32` and where the entries
`hi` start or before, merges with the first of them if it touches it. The result is a run from
`S` in front of apart runs: `(0, 0)` alone when the merged run holds all `2^32` blocks. -/
theorem mergeNext_inv {S Ln : UInt32} {hi : FreeMap} (hinv : FreeInv hi)
    (hend : S.toNat + Ln.toNat < 2 ^ 32) (hle : ∀ e ∈ hi, S.toNat + Ln.toNat ≤ e.1.toNat)
    (hz : Ln = 0 → (S, Ln) = (0, 0) ∨ (S, Ln) = (0xFFFFFFFF, 0)) :
    ∃ x rest, mergeNext S Ln hi = x :: rest ∧ x.1 = S ∧ FreeInv (x :: rest) := by
  have hSL : (S + Ln).toNat = S.toNat + Ln.toNat := UInt32.toNat_add_of_lt hend
  cases hi with
  | nil => exact ⟨_, _, rfl, rfl, freeInv_singleton (by dsimp only; omega) hz⟩
  | cons e hi =>
    obtain ⟨s', l'⟩ := e
    obtain ⟨hapart, hend', -, hiInv⟩ := freeInv_cons.mp hinv
    have hs' := hle _ (List.mem_cons_self _ _)
    dsimp only at hs' hend'
    dsimp only [mergeNext]
    split_ifs with hm
    · -- the next run starts where this one ends: they merge
      rw [UInt32.le_iff_toNat_le, hSL] at hm
      have hgap : S + Ln - s' = 0 := by
        rw [UInt32.eq_iff_toNat_eq, UInt32.toNat_sub_of_le' (by omega), hSL]
        simp only [UInt32.toNat_zero]; omega
      rw [hgap, sub_zero]
      by_cases hw : Ln.toNat + l'.toNat < 2 ^ 32
      · have hadd := UInt32.toNat_add_of_lt hw
        refine ⟨_, _, rfl, rfl,
          freeInv_cons.mpr ⟨fun e he => ?_, by dsimp only; omega, fun h0 => ?_,
          hiInv⟩⟩
        · have := hapart e he; unfold Apart at this ⊢; dsimp only at this ⊢; omega
        · dsimp only at h0
          rw [UInt32.eq_iff_toNat_eq, hadd] at h0; simp only [UInt32.toNat_zero] at h0
          have hL : Ln = 0 := UInt32.eq_iff_toNat_eq.mpr (by simp only [UInt32.toNat_zero]; omega)
          have hl : l' = 0 := UInt32.eq_iff_toNat_eq.mpr (by simp only [UInt32.toNat_zero]; omega)
          subst hL hl
          simpa using hz rfl
      · -- all `2^32` blocks: the length wraps to `0` and nothing can follow
        have hS : S = 0 := UInt32.eq_iff_toNat_eq.mpr (by simp only [UInt32.toNat_zero]; omega)
        have hzero : Ln + l' = 0 := by
          rw [UInt32.eq_iff_toNat_eq, UInt32.toNat_add_of_le (by omega)]
          simp only [UInt32.toNat_zero]
          omega
        have hnil : hi = [] := List.eq_nil_iff_forall_not_mem.mpr fun e he => by
          have := hapart e he; have := e.1.toNat_lt; unfold Apart at *; dsimp only at *; omega
        subst hS hnil
        rw [hzero]
        exact ⟨_, _, rfl, rfl, freeInv_singleton (by decide) (fun _ => .inl rfl)⟩
    · -- a gap remains
      rw [UInt32.le_iff_toNat_le, hSL] at hm
      refine ⟨_, _, rfl, rfl, freeInv_cons.mpr ⟨?_, by dsimp only; omega, hz, hinv⟩⟩
      rintro e (_ | ⟨_, he⟩)
      · unfold Apart; dsimp only; omega
      · have := hapart e he; unfold Apart at this ⊢; dsimp only at this ⊢; omega

/-- `add_free(block, count)` of blocks that are not free, in a run that ends at or below `2^32`,
keeps the invariant. -/
theorem freeInv_addFree {m : FreeMap} {b n : UInt32} (hm : FreeInv m)
    (hb : b.toNat + n.toNat ≤ 2 ^ 32)
    (hfree : ∀ p, b.toNat ≤ p → p < b.toNat + n.toNat → ¬ IsFree m p) :
    FreeInv (addFree m b n) := by
  unfold addFree
  split_ifs with hn0
  · exact hm
  have hn : 1 ≤ n.toNat := by
    rw [UInt32.eq_iff_toNat_eq] at hn0; simp only [UInt32.toNat_zero] at hn0; omega
  -- every run that holds a block lies before or after `[b, b + n)`
  have houtside : ∀ e ∈ m, 1 ≤ e.2.toNat →
      e.1.toNat + e.2.toNat ≤ b.toNat ∨ b.toNat + n.toNat ≤ e.1.toNat := by
    intro e he hl
    by_contra hno
    push_neg at hno
    exact hfree (max b.toNat e.1.toNat) (le_max_left _ _) (by omega)
      (.inr ⟨e, he, le_max_right _ _, by omega⟩)
  -- the entries before `b` and from `b` on
  set lo := m.takeWhile (fun e => decide (e.1 < b)) with hlo_def
  set rest := m.dropWhile (fun e => decide (e.1 < b)) with hrest_def
  have hpw : (lo ++ rest).Pairwise Apart := by
    rw [hlo_def, hrest_def, List.takeWhile_append_dropWhile]; exact hm.apart
  have hcross := (List.pairwise_append.mp hpw).2.2
  have hloInv : FreeInv lo := hm.sublist (List.takeWhile_prefix _).sublist
  have hrestInv : FreeInv rest := hm.sublist (List.dropWhile_suffix _).sublist
  have hlo_lt : ∀ e ∈ lo, e.1.toNat < b.toNat := fun e he => by
    simpa [UInt32.lt_iff_toNat_lt] using List.mem_takeWhile_imp he
  have hrest_ge : ∀ e ∈ rest, b.toNat ≤ e.1.toNat := le_keys_of_head hrestInv.apart fun e he => by
    have hne : rest ≠ [] := by rintro h; rw [h] at he; cases he
    have := List.head_dropWhile_not (fun e => decide (e.1 < b)) m hne
    rw [List.head?_eq_head hne, Option.mem_def, Option.some.injEq] at he
    rw [he] at this
    simpa [UInt32.lt_iff_toNat_lt] using this
  -- `emplace`: the entries after `b`, and the length it finds
  rcases he : emplaceAt b n rest with ⟨len0, hi⟩
  have hspec := emplaceAt_spec b n rest
  rw [he] at hspec
  obtain ⟨hlen0, hsub, hhi_gt⟩ : len0.toNat ≤ n.toNat ∧ List.Sublist hi rest ∧
      ∀ e ∈ hi, b.toNat < e.1.toNat := by
    rcases hspec with hr | ⟨hl, hh, hk⟩
    · dsimp only at hr
      have hmem : (b, len0) ∈ m := (List.dropWhile_suffix _).subset (hr ▸ List.mem_cons_self _ _)
      have h0 : len0.toNat = 0 := by
        by_contra h0
        rcases houtside _ hmem (by dsimp only; omega) with h | h <;> dsimp only at h <;> omega
      have hcons := freeInv_cons.mp (hr ▸ hrestInv)
      refine ⟨by omega, hr ▸ List.sublist_cons_self _ _, fun e he => ?_⟩
      have := hcons.1 e he; unfold Apart at this; dsimp only at this; omega
    · dsimp only at hl hh hk
      subst hl hh
      refine ⟨le_rfl, List.Sublist.refl _, le_keys_of_head hrestInv.apart fun e he' => ?_⟩
      have := hrest_ge e (List.mem_of_mem_head? he')
      have := hk e he'
      rw [Ne, UInt32.eq_iff_toNat_eq] at this
      omega
  have hiInv : FreeInv hi := hrestInv.sublist hsub
  -- the clamped length `L`
  have hL : (clampLen b n len0).toNat = min n.toNat (2 ^ 32 - 1 - b.toNat) := by
    rw [clampLen_of_le hlen0, toNat_clampLen hb]
  have hbL : b.toNat + (clampLen b n len0).toNat < 2 ^ 32 := by
    rw [hL]; have := b.toNat_lt; omega
  have hhiL : ∀ e ∈ hi, b.toNat + (clampLen b n len0).toNat ≤ e.1.toNat := by
    intro e heh
    have hem : e ∈ m := (List.dropWhile_suffix _).subset (hsub.subset heh)
    have hgt := hhi_gt e heh
    rcases Nat.eq_zero_or_pos e.2.toNat with h0 | h0
    · rcases hm.empty_run e hem (UInt32.eq_iff_toNat_eq.mpr h0) with rfl | rfl
      · exact absurd hgt (by simp)
      · rw [hL]; dsimp only; rw [toNat_u32Max]; omega
    · rcases houtside e hem h0 with h | h
      · omega
      · rw [hL]; omega
  have hzb : clampLen b n len0 = 0 →
      (b, clampLen b n len0) = (0, 0) ∨ (b, clampLen b n len0) = (0xFFFFFFFF, 0) := by
    intro h0
    have h0' := congrArg UInt32.toNat h0
    rw [hL, UInt32.toNat_zero] at h0'
    refine .inr (Prod.ext_iff.mpr ⟨UInt32.eq_iff_toNat_eq.mpr ?_, h0⟩)
    dsimp only; rw [toNat_u32Max]; have := b.toNat_lt; omega
  -- the entry before `b`, if any
  dsimp only
  rcases hlast : lo.getLast? with _ | ⟨s, l⟩
  · obtain ⟨x, rest', hx, -, hinv'⟩ := mergeNext_inv hiInv hbL hhiL hzb
    dsimp only
    rw [hx]; exact hinv'
  · obtain ⟨lo', hlo'⟩ := List.getLast?_eq_some_iff.mp hlast
    have hsl_mem : (s, l) ∈ lo := by
      rw [hlo']; exact List.mem_append_right _ (List.mem_singleton_self _)
    have hs := hlo_lt _ hsl_mem
    dsimp only at hs
    have hsl : s.toNat + l.toNat ≤ b.toNat := by
      rcases Nat.eq_zero_or_pos l.toNat with h0 | h0
      · omega
      · rcases houtside _ ((List.takeWhile_prefix _).subset hsl_mem) h0 with h | h <;>
          dsimp only at h <;> omega
    have hsl_nat : (s + l).toNat = s.toNat + l.toNat := UInt32.toNat_add_of_lt (by omega)
    -- entries before `(s, l)` end before `s`
    have hbefore : ∀ e ∈ lo', e.1.toNat + e.2.toNat < s.toNat := by
      have := (List.pairwise_append.mp (hlo' ▸ hloInv.apart)).2.2
      exact fun e he => this e he _ (List.mem_singleton_self _)
    dsimp only
    split_ifs with hmerge
    · -- `(s, l)` ends at `b`: the freed run extends it
      rw [UInt32.le_iff_toNat_le, hsl_nat] at hmerge
      have hgap : s + l - b = 0 := by
        rw [UInt32.eq_iff_toNat_eq, UInt32.toNat_sub_of_le' (by omega), hsl_nat, UInt32.toNat_zero]
        omega
      rw [hgap, sub_zero]
      have hlL : (l + clampLen b n len0).toNat = l.toNat + (clampLen b n len0).toNat :=
        UInt32.toNat_add_of_lt (by omega)
      have hend : s.toNat + (l + clampLen b n len0).toNat < 2 ^ 32 := by rw [hlL]; omega
      obtain ⟨x, rest', hx, hx1, hinv'⟩ := mergeNext_inv hiInv hend
        (fun e he => by rw [hlL]; have := hhiL e he; omega)
        (fun h0 => by
          have := congrArg UInt32.toNat h0; rw [hlL, UInt32.toNat_zero] at this; omega)
      rw [hx, hlo', List.dropLast_concat]
      exact freeInv_append_cons (hloInv.sublist (hlo' ▸ List.sublist_append_left _ _)) hinv'
        fun e he => by rw [hx1]; exact hbefore e he
    · -- a gap remains before `b`
      rw [UInt32.le_iff_toNat_le, hsl_nat] at hmerge
      obtain ⟨x, rest', hx, hx1, hinv'⟩ := mergeNext_inv hiInv hbL hhiL hzb
      rw [hx]
      refine freeInv_append_cons hloInv hinv' fun e he => ?_
      rw [hx1]
      rw [hlo'] at he
      rcases List.mem_append.mp he with he | he
      · have := hbefore e he; omega
      · rw [List.mem_singleton.mp he]; dsimp only; omega

/-! ### Runs of calls -/

/-- The maps reached by `add_free` and `get_free` from the empty map or from the map
`{(c, 2^32 - 1 - c)}` that `reload` starts with, where every `add_free(b, n)` has `b + n ≤ 2^32`
and frees blocks that are not free, and every `get_free(n)` has `n ≥ 1` and returns. -/
inductive FreeReachable : FreeMap → Prop
  | empty : FreeReachable []
  | reset (c : UInt32) : FreeReachable [(c, 0xFFFFFFFF - c)]
  | addFree {m : FreeMap} (b n : UInt32) : FreeReachable m → b.toNat + n.toNat ≤ 2 ^ 32 →
      (∀ p, b.toNat ≤ p → p < b.toNat + n.toNat → ¬ IsFree m p) → FreeReachable (addFree m b n)
  | getFree {m m' : FreeMap} (n pos : UInt32) : FreeReachable m → 1 ≤ n.toNat →
      getFree m n = some (pos, m') → FreeReachable m'

theorem freeInv_of_reachable {m : FreeMap} (h : FreeReachable m) : FreeInv m := by
  induction h with
  | empty => exact FreeInv.nil
  | reset c =>
    have hc := c.toNat_lt
    have hsub : (0xFFFFFFFF - c).toNat = 2 ^ 32 - 1 - c.toNat := by
      rw [UInt32.toNat_sub_of_le' (by rw [toNat_u32Max]; omega), toNat_u32Max]
    refine freeInv_singleton (by dsimp only; omega) fun h0 => .inr (Prod.ext_iff.mpr ⟨?_, h0⟩)
    rw [UInt32.eq_iff_toNat_eq, hsub, UInt32.toNat_zero] at h0
    exact UInt32.eq_iff_toNat_eq.mpr (by dsimp only; rw [toNat_u32Max]; omega)
  | addFree b n _ hb hfree ih => exact freeInv_addFree ih hb hfree
  | getFree n pos _ hn hg ih => exact freeInv_getFree ih hn hg

/-- A map that calls reach: from `{(0, 2^32 - 1)}`, `get_free(2^32 - 1)` takes every run and
leaves the dummy `(0, 0)`, and `add_free(5, 1)` of block `5`, which is not free, inserts `(5, 1)`
after it. -/
theorem reachable_dummy_and_run : FreeReachable [(0, 0), (5, 1)] := by
  have hget : getFree [(0, 0xFFFFFFFF)] 0xFFFFFFFF = some (0, [(0, 0)]) := by decide
  have hadd : addFree [(0, 0)] 5 1 = [(0, 0), (5, 1)] := by decide
  exact hadd ▸ .addFree 5 1 (.getFree _ _ (.reset 0) (by decide) hget) (by decide)
    fun p _ _ => by simp [IsFree]

/-- After every allowed call of `add_free` and `get_free`, the entries of `m_free`, read as runs
over `ℕ`, are sorted with a gap between consecutive runs, end at or below `2^32`, and are
non-empty except for `(0, 0)` and `(2^32 - 1, 0)`. -/
theorem free_space_invariant {m : FreeMap} (h : FreeReachable m) :
    m.Chain' Apart ∧ (∀ e ∈ m, e.1.toNat + e.2.toNat ≤ 2 ^ 32) ∧
      ∀ e ∈ m, e.2 = 0 → e = (0, 0) ∨ e = (0xFFFFFFFF, 0) :=
  have hm := freeInv_of_reachable h
  ⟨List.chain'_iff_pairwise.mpr hm.apart, hm.ends, hm.empty_run⟩

theorem free_space_invariant_after_calls :
    FreeReachable [(0, 0), (5, 1)] ∧
      [((0 : UInt32), (0 : UInt32)), (5, 1)].Chain' Apart ∧
      (∀ e ∈ [((0 : UInt32), (0 : UInt32)), (5, 1)], e.1.toNat + e.2.toNat ≤ 2 ^ 32) ∧
      ∀ e ∈ [((0 : UInt32), (0 : UInt32)), (5, 1)], e.2 = 0 → e = (0, 0) ∨ e = (0xFFFFFFFF, 0) :=
  ⟨reachable_dummy_and_run, free_space_invariant reachable_dummy_and_run⟩

/-- The dummy does not stay alone: from `{(0, 2^32 - 1)}`, `get_free(2^32 - 1)` takes every run and
leaves `(0, 0)`, and `add_free(5, 1)` of block `5`, which is not free, inserts `(5, 1)` after it. -/
theorem free_space_dummy_not_alone :
    FreeReachable [(0, 0), (5, 1)] ∧
      ¬ ∀ e ∈ [((0 : UInt32), (0 : UInt32)), (5, 1)], e.2 = 0 →
        [((0 : UInt32), (0 : UInt32)), (5, 1)] = [(0, 0)] :=
  ⟨reachable_dummy_and_run, by decide⟩

/-! ### Best fit -/

/-- `get_free(n)` on a map whose runs are sorted with a gap between consecutive runs and end at or
below `2^32`, when some run has `n` blocks: it returns the start `s` of an entry `(s, l)` with
`l ≥ n`, no longer than any entry of at least `n` blocks and the first of those as long, and the
map afterwards has, in that entry's place, `(s + n, l - n)` if `l > n`, nothing if `l = n`, and
`(0, 0)` instead if nothing else remains. -/
theorem getFree_best_fit {m : FreeMap} {n : UInt32} (hm : m.Chain' Apart)
    (hend : ∀ e ∈ m, e.1.toNat + e.2.toNat ≤ 2 ^ 32) (hfit : ∃ e ∈ m, n.toNat ≤ e.2.toNat) :
    ∃ lo s l hi, m = lo ++ (s, l) :: hi ∧ n.toNat ≤ l.toNat ∧
      (∀ e ∈ m, n.toNat ≤ e.2.toNat → l.toNat ≤ e.2.toNat) ∧
      (∀ e ∈ lo, n.toNat ≤ e.2.toNat → l.toNat < e.2.toNat) ∧
      getFree m n = some (s, if n.toNat < l.toNat then lo ++ (s + n, l - n) :: hi
        else if lo ++ hi = [] then [(0, 0)] else lo ++ hi) := by
  cases hb : bestFit n none m with
  | none =>
    obtain ⟨e, he, hle⟩ := hfit
    exact absurd hle (Nat.not_le.mpr ((bestFit_eq_none hb).2 e he))
  | some r =>
    have hp := List.chain'_iff_pairwise.mp hm
    obtain ⟨lo, hi, hsplit, h₁, h₂, h₃⟩ := getFree_split hp hend hb
    -- the runs are apart, so `r` is not before itself
    have hr : r ∉ lo := fun h => by
      have hp' : (lo ++ r :: hi).Pairwise Apart := hsplit ▸ hp
      have := (List.pairwise_append.1 hp').2.2 r h r (List.mem_cons_self _ _)
      unfold Apart at this; omega
    have hb' : bestFit n none (lo ++ r :: hi) = some r := hsplit ▸ hb
    exact ⟨lo, r.1, r.2, hi, hsplit, h₁, h₂, bestFit_first hb' hr nofun, h₃⟩

theorem getFree_best_fit_tie :
    [((2 : UInt32), (3 : UInt32)), (10, 3)].Chain' Apart ∧
      (∀ e ∈ [((2 : UInt32), (3 : UInt32)), (10, 3)], e.1.toNat + e.2.toNat ≤ 2 ^ 32) ∧
      (∃ e ∈ [((2 : UInt32), (3 : UInt32)), (10, 3)], (2 : UInt32).toNat ≤ e.2.toNat) ∧
      ∃ lo s l hi, [((2 : UInt32), (3 : UInt32)), (10, 3)] = lo ++ (s, l) :: hi ∧
        (2 : UInt32).toNat ≤ l.toNat ∧
        (∀ e ∈ [((2 : UInt32), (3 : UInt32)), (10, 3)], (2 : UInt32).toNat ≤ e.2.toNat →
          l.toNat ≤ e.2.toNat) ∧
        (∀ e ∈ lo, (2 : UInt32).toNat ≤ e.2.toNat → l.toNat < e.2.toNat) ∧
        getFree [(2, 3), (10, 3)] 2 = some (s, if (2 : UInt32).toNat < l.toNat then
          lo ++ (s + 2, l - 2) :: hi else if lo ++ hi = [] then [(0, 0)] else lo ++ hi) :=
  ⟨List.chain'_pair.mpr (by decide), by decide, by decide,
    getFree_best_fit (List.chain'_pair.mpr (by decide)) (by decide) (by decide)⟩


end Todokanai.Ssdb
