import Todokanai.Ssdb.Scan

/-!
# What a pass of `reload` keeps

A pass keeps, for each key, the first record of that key with the largest order, and a
terminator: in the first pass the first with the largest order, in a later pass the last whose
order is `m_flush`. Both "first with the largest" selections are folds of `pick`, which replaces
the incumbent by a strictly larger element, and a fold of `pick` forgets an element that does not
end up selected: dropping it from the list leaves the result as it was (`foldl_pick_erase`).

* `termOffer`, `recordOffer`: what one block offers to a pass with a given `m_flush`: a terminator,
  or the entry of a record of one data field, when its header passes the checks and it is not in
  flight.
* `keptEntry`, `newestTerminator`, `flushTerminator`: what a pass keeps of a list of blocks.
* `Kept`: the scan's state after some blocks agrees with these selections; `kept_scanStep` is one
  iteration, `reloadPass_kept` a whole pass.
* `reload_returns_within_three_passes`: the first pass sets `m_flush` to the largest order of the
  terminators it accepts, and `reload` from it returns within three calls.

Source: `src/src/util/ssdb.hpp`, `umap::reload` (lines 127–294) and `umap::init` (444–461).
-/

namespace Todokanai.Ssdb

/-! ### Keeping the first strictly larger element -/

section Pick

variable {α : Type} (key : α → Nat)

/-- Replace the incumbent by `x` when `x` is strictly larger. -/
def pick (best : Option α) (x : α) : Option α :=
  if best.all (fun b => key b < key x) then some x else best

@[simp] theorem pick_none (x : α) : pick key none x = some x := rfl

theorem pick_some (b x : α) : pick key (some b) x = if key b < key x then some x else some b := by
  simp [pick]

/-- From an incumbent no lower than `a`, the fold ends where it ends from `a`, unless it keeps
that incumbent to the end. -/
theorem foldl_pick_of_le : ∀ (l : List α) (a : Option α) (x : α),
    (∀ y, a = some y → key y ≤ key x) →
      l.foldl (pick key) a = l.foldl (pick key) (some x) ∨ l.foldl (pick key) (some x) = some x
  | [], _, _, _ => .inr rfl
  | z :: l, a, x, hax => by
    simp only [List.foldl_cons]
    by_cases hz : key x < key z
    · have hza : pick key a z = some z := by
        cases a with
        | none => rfl
        | some y => rw [pick_some, if_pos (by have := hax y rfl; omega)]
      rw [hza, pick_some, if_pos hz]
      exact .inl rfl
    · rw [pick_some, if_neg hz]
      refine foldl_pick_of_le l (pick key a z) x fun y hy => ?_
      cases a with
      | none => cases hy; omega
      | some b =>
        rw [pick_some] at hy
        split_ifs at hy
        · cases hy; omega
        · cases hy; exact hax y rfl

/-- An element that the fold does not select can be dropped from the list. -/
theorem foldl_pick_erase (l₁ l₂ : List α) (x : α)
    (h : (l₁ ++ x :: l₂).foldl (pick key) none ≠ some x) :
    (l₁ ++ l₂).foldl (pick key) none = (l₁ ++ x :: l₂).foldl (pick key) none := by
  simp only [List.foldl_append, List.foldl_cons] at h ⊢
  by_cases hx : (l₁.foldl (pick key) none).all (fun b => key b < key x)
  · have hpx : pick key (l₁.foldl (pick key) none) x = some x := if_pos hx
    rw [hpx] at h ⊢
    refine (foldl_pick_of_le key l₂ _ x fun y hy => ?_).resolve_right h
    rw [hy] at hx
    simp only [Option.all_some, decide_eq_true_eq] at hx
    exact hx.le
  · rw [show pick key (l₁.foldl (pick key) none) x = l₁.foldl (pick key) none from if_neg hx]

/-- One step keeps an element no lower than the new one and than the incumbent: the new one, or
the incumbent. -/
theorem pick_eq_some (a : Option α) (z : α) :
    ∃ c, pick key a z = some c ∧ (c = z ∨ a = some c) ∧ key z ≤ key c ∧
      ∀ b, a = some b → key b ≤ key c := by
  cases a with
  | none => exact ⟨z, rfl, .inl rfl, le_rfl, fun b hb => by cases hb⟩
  | some b =>
    rw [pick_some]
    split_ifs with hb
    · exact ⟨z, rfl, .inl rfl, le_rfl, fun b' hb' => by cases hb'; exact hb.le⟩
    · exact ⟨b, rfl, .inr rfl, by omega, fun b' hb' => by cases hb'; exact le_rfl⟩

/-- The fold selects its start or an element of the list, and nothing in the list is larger. -/
theorem foldl_pick_some : ∀ (l : List α) (a : Option α) {y : α}, l.foldl (pick key) a = some y →
    (a = some y ∨ y ∈ l) ∧ (∀ b, a = some b → key b ≤ key y) ∧ ∀ z ∈ l, key z ≤ key y
  | [], a, y, h => by
    have h : a = some y := h
    exact ⟨.inl h, fun b hb => by rw [h] at hb; cases hb; exact le_rfl,
      fun z hz => absurd hz (List.not_mem_nil z)⟩
  | z :: l, a, y, h => by
    obtain ⟨hmem, hstart, hle⟩ := foldl_pick_some l (pick key a z) h
    obtain ⟨c, hc, hcz, hzc, hac⟩ := pick_eq_some key a z
    have hcy := hstart c hc
    refine ⟨?_, fun b hb => (hac b hb).trans hcy, fun w hw => ?_⟩
    · rcases hmem with hmem | hmem
      · rw [hc] at hmem
        cases hmem
        rcases hcz with rfl | hac'
        · exact .inr (List.mem_cons_self _ _)
        · exact .inl hac'
      · exact .inr (List.mem_cons_of_mem _ hmem)
    · rcases List.mem_cons.1 hw with rfl | hw
      · exact hzc.trans hcy
      · exact hle w hw

/-- The fold ends with nothing only from nothing and over no element. -/
theorem foldl_pick_eq_none : ∀ (l : List α) (a : Option α), l.foldl (pick key) a = none →
    a = none ∧ l = []
  | [], _, h => ⟨h, rfl⟩
  | z :: l, a, h => by
    obtain ⟨c, hc, -⟩ := pick_eq_some key a z
    have := (foldl_pick_eq_none l _ h).1
    rw [hc] at this
    cases this

end Pick

/-! ### What a block offers to a pass -/

variable {K V : Type}

/-- A block that a pass with `m_flush = f` takes into account: its order is in `[1, 2^63]`, its
size below `2^31`, and it is not newer than `f`. -/
def BlockLayout.Admitted (f : UInt64) (sb : BlockLayout) : Prop :=
  ¬ (0x7FFFFFFFFFFFFFFF : UInt64) ≤ sb.order - 1 ∧ ¬ (0x80000000 : UInt64) ≤ sb.size ∧
    ¬ f < sb.order

instance (f : UInt64) : DecidablePred (BlockLayout.Admitted f) := fun _ => instDecidableAnd

/-- The terminator that the block `ob` offers to a pass with `m_flush = f`. -/
def termOffer (f : UInt64) : Option BlockLayout → Option BlockLayout
  | some sb => if sb.Admitted f ∧ sb.size = 0 then some sb else none
  | none => none

/-- The entry that the block `ob` at `i` offers to a pass with `m_flush = f`: the decoded head of
a record of one data field, with its one-block run. -/
def recordOffer (P : Params K V) (f : UInt64) (i : Nat) :
    Option BlockLayout → Option (K × Control × V)
  | some sb =>
    if sb.Admitted f ∧ sb.size ≠ 0 ∧ sb.size.toNat ≤ dataSize then
      some ((P.load (sb.dataPrefix sb.size.toNat)).1, nullControl.loaded sb.order i 1,
        (P.load (sb.dataPrefix sb.size.toNat)).2)
    else none
  | none => none

@[simp] theorem termOffer_none (f : UInt64) : termOffer f none = none := rfl

@[simp] theorem recordOffer_none (P : Params K V) (f : UInt64) (i : Nat) :
    recordOffer P f i none = none := rfl

/-- The terminators that the blocks `bs` offer to a pass with `m_flush = f`, with their blocks. -/
def terminators (f : UInt64) (bs : List (Nat × Option BlockLayout)) : List (Nat × BlockLayout) :=
  bs.filterMap fun b => (termOffer f b.2).map (b.1, ·)

/-- The terminator the first pass keeps: the first with the largest order. -/
def newestTerminator (bs : List (Nat × Option BlockLayout)) : Option (Nat × BlockLayout) :=
  (terminators u64Max bs).foldl (pick fun t => t.2.order.toNat) none

/-- The terminator a later pass keeps: the last whose order is `m_flush`. -/
def flushTerminator (f : UInt64) (bs : List (Nat × Option BlockLayout)) :
    Option (Nat × BlockLayout) :=
  ((terminators f bs).filter fun t => t.2.order = f).getLast?

/-- What the scan holds of the terminator `t` it keeps: `m_order`, `m_lastf` and `last_hash`, or
their initial values when it keeps none. -/
def keptTerminator : Option (Nat × BlockLayout) → UInt64 × UInt32 × List UInt8
  | some t => (t.2.order, t.1.toUInt32, t.2.dataPrefix 64)
  | none => (0, 0xFFFFFFFF, List.replicate 64 0)

theorem termOffer_eq_some {f : UInt64} {ob : Option BlockLayout} {sb : BlockLayout}
    (h : termOffer f ob = some sb) : ob = some sb ∧ sb.Admitted f ∧ sb.size = 0 := by
  cases ob with
  | none => cases h
  | some sb' =>
    simp only [termOffer] at h
    split_ifs at h with hc
    cases h
    exact ⟨rfl, hc⟩

/-- A terminator offered to a pass is offered to the first pass. -/
theorem termOffer_max {f : UInt64} {ob : Option BlockLayout} {sb : BlockLayout}
    (h : termOffer f ob = some sb) : termOffer u64Max ob = some sb := by
  obtain ⟨rfl, ⟨ho, hs, -⟩, h0⟩ := termOffer_eq_some h
  have hmax : ¬ u64Max < sb.order := by
    rw [UInt64.lt_iff_toNat_lt]; exact Nat.not_lt.2 (Nat.le_pred_of_lt sb.order.toNat_lt)
  simp [termOffer, BlockLayout.Admitted, ho, hs, hmax, h0]

theorem mem_terminators {f : UInt64} {bs : List (Nat × Option BlockLayout)}
    {t : Nat × BlockLayout} :
    t ∈ terminators f bs ↔ ∃ ob, (t.1, ob) ∈ bs ∧ termOffer f ob = some t.2 := by
  simp only [terminators, List.mem_filterMap, Option.map_eq_some']
  constructor
  · rintro ⟨⟨j, ob⟩, hb, sb, hsb, rfl⟩
    exact ⟨ob, hb, hsb⟩
  · rintro ⟨ob, hb, hsb⟩
    exact ⟨(t.1, ob), hb, t.2, hsb, rfl⟩

theorem recordOffer_control (P : Params K V) {f : UInt64} {i : Nat} {ob : Option BlockLayout}
    {e : K × Control × V} (h : recordOffer P f i ob = some e) :
    e.2.1.order ≠ 0 ∧ e.2.1 = nullControl.loaded e.2.1.order i 1 := by
  cases ob with
  | none => cases h
  | some sb =>
    simp only [recordOffer] at h
    split_ifs at h with hc
    cases h
    exact ⟨order_ne_zero_of_header hc.1.1, rfl⟩

theorem recordOffer_inj {P : Params K V} {f f' : UInt64} {j : Nat} {ob : Option BlockLayout}
    {e e' : K × Control × V} (h : recordOffer P f j ob = some e)
    (h' : recordOffer P f' j ob = some e') : e = e' := by
  cases ob with
  | none => cases h
  | some sb =>
    simp only [recordOffer] at h h'
    split_ifs at h h'
    cases h; cases h'; rfl

theorem recordOffer_order {P : Params K V} {f : UInt64} {j : Nat} {sb : BlockLayout}
    {e : K × Control × V}
    (h : recordOffer P f j (some sb) = some e) : e.2.1.order = sb.order := by
  simp only [recordOffer] at h
  split_ifs at h
  cases h; rfl

/-- No terminator that the first pass is offered is newer than the one it keeps. -/
theorem le_keptTerminator_newest {bs : List (Nat × Option BlockLayout)} {t : Nat × BlockLayout}
    (ht : t ∈ terminators u64Max bs) :
    t.2.order.toNat ≤ (keptTerminator (newestTerminator bs)).1.toNat := by
  cases hn : newestTerminator bs with
  | none => exact absurd ((foldl_pick_eq_none _ _ _ hn).2 ▸ ht) (List.not_mem_nil _)
  | some y => exact (foldl_pick_some _ _ none hn).2.2 t ht

/-- In the first pass, the kept terminator is replaced by a strictly newer one. -/
theorem keptTerminator_pick (t : Option (Nat × BlockLayout)) {x : Nat × BlockLayout}
    (hx : x.2.order ≠ 0) :
    keptTerminator (pick (fun t => t.2.order.toNat) t x) =
      if (keptTerminator t).1 < x.2.order then keptTerminator (some x) else keptTerminator t := by
  cases t with
  | none =>
    rw [pick_none, if_pos]
    rw [UInt64.lt_iff_toNat_lt]
    exact Nat.pos_of_ne_zero fun h => hx (UInt64.eq_iff_toNat_eq.2 h)
  | some y =>
    have hlt : (keptTerminator (some y)).1 < x.2.order ↔ y.2.order.toNat < x.2.order.toNat :=
      UInt64.lt_iff_toNat_lt
    rw [pick_some]
    by_cases h : y.2.order.toNat < x.2.order.toNat
    · rw [if_pos h, if_pos (hlt.2 h)]
    · rw [if_neg h, if_neg (mt hlt.1 h)]

theorem newestTerminator_append_none {i : Nat} {ob : Option BlockLayout}
    (h : termOffer u64Max ob = none) (bs : List (Nat × Option BlockLayout)) :
    newestTerminator (bs ++ [(i, ob)]) = newestTerminator bs := by
  simp [newestTerminator, terminators, h]

theorem newestTerminator_append_some {i : Nat} {ob : Option BlockLayout} {sb : BlockLayout}
    (h : termOffer u64Max ob = some sb) (bs : List (Nat × Option BlockLayout)) :
    newestTerminator (bs ++ [(i, ob)]) =
      pick (fun t => t.2.order.toNat) (newestTerminator bs) (i, sb) := by
  simp [newestTerminator, terminators, h]

theorem flushTerminator_append_none {f : UInt64} {i : Nat} {ob : Option BlockLayout}
    (h : termOffer f ob = none) (bs : List (Nat × Option BlockLayout)) :
    flushTerminator f (bs ++ [(i, ob)]) = flushTerminator f bs := by
  simp [flushTerminator, terminators, h]

theorem flushTerminator_append_some {f : UInt64} {i : Nat} {ob : Option BlockLayout}
    {sb : BlockLayout} (h : termOffer f ob = some sb) (bs : List (Nat × Option BlockLayout)) :
    flushTerminator f (bs ++ [(i, ob)]) =
      if f = sb.order then some (i, sb) else flushTerminator f bs := by
  have ht : terminators f (bs ++ [(i, ob)]) = terminators f bs ++ [(i, sb)] := by
    simp [terminators, h]
  rw [flushTerminator, flushTerminator, ht, List.filter_append]
  by_cases hf : f = sb.order
  · simp [hf.symm]
  · simp [Ne.symm hf, hf]

theorem mem_terminators_append {f : UInt64} {bs : List (Nat × Option BlockLayout)} {i : Nat}
    {ob : Option BlockLayout} {t : Nat × BlockLayout} (ht : t ∈ terminators f (bs ++ [(i, ob)])) :
    t ∈ terminators f bs ∨ termOffer f ob = some t.2 := by
  obtain ⟨ob', hb, ho⟩ := mem_terminators.1 ht
  rcases List.mem_append.1 hb with hb | hb
  · exact .inl (mem_terminators.2 ⟨ob', hb, ho⟩)
  · cases List.mem_singleton.1 hb
    exact .inr ho

/-- A record head offers no terminator. -/
theorem termOffer_of_recordOffer {P : Params K V} {f f' : UInt64} {i : Nat}
    {ob : Option BlockLayout} {e : K × Control × V} (h : recordOffer P f i ob = some e) :
    termOffer f' ob = none := by
  cases ob with
  | none => rfl
  | some sb =>
    simp only [recordOffer] at h
    split_ifs at h with hc
    simp [termOffer, hc.2.1]

/-! ### The scan's state after a block -/

/-- `st'` holds what `st` holds of a pass's selection: only the free space, the error and,
outside the first pass, the order may differ. -/
structure Framed (st st' : ScanState K V) : Prop where
  map : st'.u.map = st.u.map
  hash : st'.u.hash = st.u.hash
  flush : st'.u.flush = st.u.flush
  lastf : st'.u.lastf = st.u.lastf
  lastHash : st'.lastHash = st.lastHash
  order : st.u.flush = u64Max → st'.u.order = st.u.order
  order_le : st.u.order.toNat ≤ st'.u.order.toNat

/-- A step that changes only the error and the free space. -/
theorem framed_free_error (st : ScanState K V) (e : UInt32) (fr : FreeMap) :
    Framed st ⟨{ st.u with error := e, free := fr }, st.lastHash⟩ :=
  ⟨rfl, rfl, rfl, rfl, rfl, fun _ => rfl, le_rfl⟩

theorem Framed.trans {st₁ st₂ st₃ : ScanState K V} (h₁ : Framed st₁ st₂) (h₂ : Framed st₂ st₃) :
    Framed st₁ st₃ :=
  ⟨h₂.map.trans h₁.map, h₂.hash.trans h₁.hash, h₂.flush.trans h₁.flush, h₂.lastf.trans h₁.lastf,
    h₂.lastHash.trans h₁.lastHash, fun hf => (h₂.order (h₁.flush.trans hf)).trans (h₁.order hf),
    h₁.order_le.trans h₂.order_le⟩

theorem framed_noteOrder (st : ScanState K V) (o : UInt64) : Framed st (st.noteOrder o) := by
  unfold ScanState.noteOrder
  split_ifs with h
  · exact ⟨rfl, rfl, rfl, rfl, rfl, fun hf => absurd hf h.1,
      (UInt64.lt_iff_toNat_lt.1 h.2).le⟩
  · exact ⟨rfl, rfl, rfl, rfl, rfl, fun _ => rfl, le_rfl⟩

/-- Outside the first pass the scan remembers the largest order it has seen. -/
theorem noteOrder_order_ge {st : ScanState K V} (hf : st.u.flush ≠ u64Max) (o : UInt64) :
    o.toNat ≤ (st.noteOrder o).u.order.toNat := by
  unfold ScanState.noteOrder
  split_ifs with h
  · exact le_rfl
  · rw [not_and] at h
    exact Nat.not_lt.1 (mt UInt64.lt_iff_toNat_lt.2 (h hf))

theorem scanTerminator_order_later {st : ScanState K V} (i : Nat) (sb : BlockLayout)
    (hf : st.u.flush ≠ u64Max) : (scanTerminator st i sb).u.order = st.u.order := by
  unfold scanTerminator; dsimp only
  rw [if_neg (fun h => hf h.1)]
  split_ifs <;> rfl

/-- In the first pass the scan keeps a terminator exactly when it is newer than the one it
holds. -/
theorem scanTerminator_first {st : ScanState K V} (i : Nat) {sb : BlockLayout}
    (hf : st.u.flush = u64Max) (ho : sb.order ≠ u64Max) :
    ((scanTerminator st i sb).u.order, (scanTerminator st i sb).u.lastf,
        (scanTerminator st i sb).lastHash) =
      if st.u.order < sb.order then (sb.order, i.toUInt32, sb.dataPrefix 64)
      else (st.u.order, st.u.lastf, st.lastHash) := by
  unfold scanTerminator; dsimp only
  by_cases h : st.u.order < sb.order
  · rw [if_pos ⟨hf, h⟩, if_pos h]
  · rw [if_neg (fun h' => h h'.2), if_neg (by rw [hf]; exact Ne.symm ho), if_neg h]

/-- In a later pass the scan keeps a terminator exactly when its order is `m_flush`. -/
theorem scanTerminator_later {st : ScanState K V} (i : Nat) (sb : BlockLayout)
    (hf : st.u.flush ≠ u64Max) :
    ((scanTerminator st i sb).u.lastf, (scanTerminator st i sb).lastHash) =
      if st.u.flush = sb.order then (i.toUInt32, sb.dataPrefix 64)
      else (st.u.lastf, st.lastHash) := by
  unfold scanTerminator; dsimp only
  rw [if_neg (fun h => hf h.1)]
  split_ifs <;> rfl

section Offers

variable [DecidableEq K] (P : Params K V)

/-- The entries that the blocks `bs` offer for the key `k`. -/
def entriesOf (f : UInt64) (k : K) (bs : List (Nat × Option BlockLayout)) : List (Control × V) :=
  bs.filterMap fun b => (recordOffer P f b.1 b.2).bind fun e => if e.1 = k then some e.2 else none

/-- The entry a pass keeps for the key `k`: the first offered with the largest order. -/
def keptEntry (f : UInt64) (k : K) (bs : List (Nat × Option BlockLayout)) : Option (Control × V) :=
  (entriesOf P f k bs).foldl (pick fun e => e.1.order.toNat) none

theorem mem_entriesOf {f : UInt64} {k : K} {bs : List (Nat × Option BlockLayout)}
    {x : Control × V} :
    x ∈ entriesOf P f k bs ↔ ∃ b ∈ bs, recordOffer P f b.1 b.2 = some (k, x) := by
  simp only [entriesOf, List.mem_filterMap, Option.bind_eq_some]
  constructor
  · rintro ⟨b, hb, ⟨k', x'⟩, he, hx⟩
    split_ifs at hx with hk
    cases hx; cases hk
    exact ⟨b, hb, he⟩
  · rintro ⟨b, hb, he⟩
    exact ⟨b, hb, (k, x), he, if_pos rfl⟩

/-- Every kept entry is offered by a block, with its one-block run and no new run. -/
theorem keptEntry_offered {f : UInt64} {k : K} {bs : List (Nat × Option BlockLayout)}
    {x : Control × V} (h : keptEntry P f k bs = some x) :
    ∃ b ∈ bs, recordOffer P f b.1 b.2 = some (k, x) :=
  (mem_entriesOf P).1 ((foldl_pick_some _ _ none h).1.resolve_left nofun)

theorem keptEntry_append_none {f : UInt64} {i : Nat} {ob : Option BlockLayout}
    (h : recordOffer P f i ob = none) (k : K) (bs : List (Nat × Option BlockLayout)) :
    keptEntry P f k (bs ++ [(i, ob)]) = keptEntry P f k bs := by
  simp [keptEntry, entriesOf, h]

theorem keptEntry_append_some {f : UInt64} {i : Nat} {ob : Option BlockLayout} {k' : K}
    {c : Control} {v : V} (h : recordOffer P f i ob = some (k', c, v)) (k : K)
    (bs : List (Nat × Option BlockLayout)) :
    keptEntry P f k (bs ++ [(i, ob)]) =
      if k' = k then pick (fun e => e.1.order.toNat) (keptEntry P f k bs) (c, v)
      else keptEntry P f k bs := by
  by_cases hk : k' = k <;> simp [keptEntry, entriesOf, h, hk]

@[simp] theorem acceptRecord_lastf (u : Umap K V) (k : K) (v : V) (o sorder : UInt64)
    (block n : Nat) : (acceptRecord P u k v o sorder block n).lastf = u.lastf := by
  unfold acceptRecord; split <;> (try split) <;> rfl

/-- The record branch on a head of one data field offers the decoded record with its one-block
run to the map. -/
theorem scanRecord_of_le (d : Disk) (count : Nat) (st : ScanState K V) (i : Nat)
    {sb : BlockLayout} (hsz : sb.size.toNat ≤ dataSize) :
    (scanRecord P d count st i sb).1 =
      { st with
        u := acceptRecord P st.u (P.load (sb.dataPrefix sb.size.toNat)).1
               (P.load (sb.dataPrefix sb.size.toNat)).2 sb.order sb.order i 1 } := by
  unfold scanRecord; dsimp only
  rw [reassemble_of_not_lt _ (by dsimp only; omega)]
  simp [Nat.min_eq_left hsz]

/-- The record branch on a head of more than one data field changes only the error and the free
space. -/
theorem framed_scanRecord {d : Disk} (count : Nat) (st : ScanState K V) {i : Nat}
    {sb : BlockLayout} (hread : d.readBlock i = some sb) (hsb : sb.size ≠ u64Max)
    (hsz : dataSize < sb.size.toNat) : Framed st (scanRecord P d count st i sb).1 := by
  unfold scanRecord; dsimp only
  rw [if_pos (by rw [reassemble_size_of_not_continuation count hread hsb]; dsimp only; omega)]
  exact ⟨rfl, rfl, rfl, rfl, rfl, fun _ => rfl, le_rfl⟩

/-! ### The map after a record is offered -/

theorem findEntry_append_single {k : K} {m : List (K × Control × V)} {e : K × Control × V}
    (he : e.1 ∉ m.map Prod.fst) :
    findEntry k (m ++ [e]) = if e.1 = k then some e.2 else findEntry k m := by
  induction m with
  | nil => rw [List.nil_append, findEntry_cons]
  | cons e' m ih =>
    simp only [List.map_cons, List.mem_cons, not_or] at he
    rw [List.cons_append, findEntry_cons, findEntry_cons, ih he.2]
    by_cases h' : e'.1 = k
    · rw [if_pos h', if_neg (fun h => he.1 (h.trans h'.symm)), if_pos h']
    · rw [if_neg h', if_neg h']

theorem findEntry_setEntry (k k' : K) (c : Control) (v : V) (m : List (K × Control × V)) :
    findEntry k (setEntry k' c v m) =
      if k' = k then (findEntry k m).map fun _ => (c, v) else findEntry k m := by
  induction m with
  | nil => split_ifs <;> rfl
  | cons e m ih =>
    rw [setEntry_cons, findEntry_cons, findEntry_cons, ih]
    rcases eq_or_ne k' k with rfl | hk <;> by_cases he : e.1 = k' <;> simp [he, *]

theorem Control.loaded_eq {c : Control} (hb : c.newBlock = 0) (hn : c.newCount = 0)
    (o : UInt64) (block n : Nat) : c.loaded o block n = nullControl.loaded o block n := by
  obtain ⟨_, _, _, nb, nc⟩ := c
  dsimp only at hb hn
  subst hb hn
  rfl

/-- Offering a record to the map keeps, for its key, the newer of the entry and the record; when
the entry has no new run, the record's control is that of a freshly loaded entry. -/
theorem findEntry_acceptRecord {u : Umap K V} {k' : K} {v : V} {o : UInt64} {i : Nat}
    (hnew : ∀ c w, findEntry k' u.map = some (c, w) → c.newBlock = 0 ∧ c.newCount = 0) (k : K) :
    findEntry k (acceptRecord P u k' v o o i 1).map =
      if k' = k then
        pick (fun e => e.1.order.toNat) (findEntry k u.map) (nullControl.loaded o i 1, v)
      else findEntry k u.map := by
  unfold acceptRecord
  split
  · rename_i hf
    rw [findEntry_append_single (findEntry_eq_none.1 hf)]
    by_cases hk : k' = k
    · subst hk; rw [if_pos rfl, if_pos rfl, hf, pick_none]
    · rw [if_neg hk, if_neg hk]
  · rename_i c w hf
    obtain ⟨hb, hn⟩ := hnew c w hf
    split
    · rename_i hlt
      dsimp only
      rw [findEntry_setEntry, Control.loaded_eq hb hn]
      by_cases hk : k' = k
      · subst hk
        rw [if_pos rfl, if_pos rfl, hf, Option.map_some', pick_some, if_pos
          (show c.order.toNat < (nullControl.loaded o i 1).order.toNat from
            UInt64.lt_iff_toNat_lt.1 hlt)]
      · rw [if_neg hk, if_neg hk]
    · rename_i hlt
      dsimp only
      by_cases hk : k' = k
      · subst hk
        rw [if_pos rfl, hf, pick_some, if_neg
          (show ¬ c.order.toNat < (nullControl.loaded o i 1).order.toNat from
            mt UInt64.lt_iff_toNat_lt.2 hlt)]
      · rw [if_neg hk]

/-! ### What the scan holds -/

/-- The scan's state `st` after the blocks `bs` of a pass with `m_flush = f` holds what the pass
selects from them. -/
structure Kept (f : UInt64) (bs : List (Nat × Option BlockLayout)) (st : ScanState K V) :
    Prop where
  flush : st.u.flush = f
  inv : ScanInv P st.u
  /-- For each key, the map holds the first entry offered with the largest order. -/
  entry : ∀ k, findEntry k st.u.map = keptEntry P f k bs
  /-- The first pass holds the first terminator with the largest order. -/
  first : f = u64Max → (st.u.order, st.u.lastf, st.lastHash) = keptTerminator (newestTerminator bs)
  /-- A later pass holds the last terminator whose order is `m_flush`. -/
  later : f ≠ u64Max → (st.u.lastf, st.lastHash) = (keptTerminator (flushTerminator f bs)).2
  /-- A later pass holds an order no lower than that of any valid terminator. -/
  above : f ≠ u64Max → ∀ t ∈ terminators u64Max bs, t.2.order.toNat ≤ st.u.order.toNat

variable {P}
variable {f : UInt64} {bs : List (Nat × Option BlockLayout)} {st st₁ : ScanState K V} {i : Nat}
  {ob : Option BlockLayout}

/-- A block that offers nothing leaves what the scan holds. -/
theorem Kept.of_framed {st' : ScanState K V} (hk : Kept P f bs st) (hfr : Framed st st')
    (ht : termOffer f ob = none) (hr : recordOffer P f i ob = none)
    (hnew : f ≠ u64Max → ∀ sb, termOffer u64Max ob = some sb →
      sb.order.toNat ≤ st'.u.order.toNat) :
    Kept P f (bs ++ [(i, ob)]) st' where
  flush := hfr.flush.trans hk.flush
  inv := hk.inv.of_eq P hfr.map hfr.hash
  entry k := by rw [keptEntry_append_none P hr, hfr.map, hk.entry]
  first hf := by
    rw [hfr.order (hk.flush.trans hf), hfr.lastf, hfr.lastHash, hk.first hf]
    rw [hf] at ht
    rw [newestTerminator_append_none ht]
  later hf := by rw [hfr.lastf, hfr.lastHash, hk.later hf, flushTerminator_append_none ht]
  above hf t ht' := (mem_terminators_append ht').elim
    (fun ht' => (hk.above hf t ht').trans hfr.order_le) (hnew hf t.2)

/-- A block that offers nothing, not even a terminator in flight, leaves what the scan holds. -/
theorem Kept.of_skip {st' : ScanState K V} (hk : Kept P f bs st) (hfr : Framed st st')
    (ht : termOffer u64Max ob = none) (hr : recordOffer P f i ob = none) :
    Kept P f (bs ++ [(i, ob)]) st' :=
  hk.of_framed hfr (Option.eq_none_iff_forall_not_mem.2 fun sb h =>
      absurd (termOffer_max h) (by rw [ht]; exact nofun)) hr
    fun _ sb h => absurd (ht.symm.trans h) nofun

/-- A terminator offered to the pass is selected as `scanTerminator` keeps it. -/
theorem Kept.terminator {sb : BlockLayout} (hk : Kept P f bs st) (hfr : Framed st st₁)
    (ht : termOffer f ob = some sb) (hr : recordOffer P f i ob = none)
    (hnote : f ≠ u64Max → sb.order.toNat ≤ st₁.u.order.toNat) :
    Kept P f (bs ++ [(i, ob)]) (scanTerminator st₁ i sb) where
  flush := by rw [scanTerminator_u_flush, hfr.flush, hk.flush]
  inv := hk.inv.of_eq P (by rw [scanTerminator_u_map, hfr.map])
    (by rw [scanTerminator_u_hash, hfr.hash])
  entry k := by rw [keptEntry_append_none P hr, scanTerminator_u_map, hfr.map, hk.entry]
  first hf := by
    obtain ⟨-, ⟨hsb, -, -⟩, -⟩ := termOffer_eq_some ht
    have hfirst := hk.first hf
    rw [scanTerminator_first i ((hfr.flush.trans hk.flush).trans hf)
        (fun h => by rw [h] at hsb; exact hsb (by decide)),
      hfr.order (hk.flush.trans hf), hfr.lastf, hfr.lastHash, hfirst,
      show st.u.order = (keptTerminator (newestTerminator bs)).1 from congrArg Prod.fst hfirst]
    rw [hf] at ht
    rw [newestTerminator_append_some ht, keptTerminator_pick _ (order_ne_zero_of_header hsb)]
    rfl
  later hf := by
    rw [scanTerminator_later i sb (by rw [hfr.flush, hk.flush]; exact hf), hfr.flush, hk.flush,
      hfr.lastf, hfr.lastHash, hk.later hf, flushTerminator_append_some ht]
    split_ifs <;> rfl
  above hf t ht' := by
    rw [scanTerminator_order_later i sb (by rw [hfr.flush, hk.flush]; exact hf)]
    rcases mem_terminators_append ht' with ht' | ht'
    · exact (hk.above hf t ht').trans hfr.order_le
    · obtain ⟨rfl, -⟩ := termOffer_eq_some ht
      obtain ⟨h, -⟩ := termOffer_eq_some ht'
      cases h
      exact hnote hf

/-- A record offered to the pass is selected as `acceptRecord` keeps it. -/
theorem Kept.record {k' : K} {c : Control} {v : V} (hk : Kept P f bs st) (hfr : Framed st st₁)
    (ht : termOffer f ob = none) (hr : recordOffer P f i ob = some (k', c, v)) (hi : i < 2 ^ 32) :
    Kept P f (bs ++ [(i, ob)]) { st₁ with u := acceptRecord P st₁.u k' v c.order c.order i 1 } where
  flush := (acceptRecord_flush P _ _ _ _ _ _ _).trans (hfr.flush.trans hk.flush)
  inv := scanInv_acceptRecord P (hk.inv.of_eq P hfr.map hfr.hash) k' v
    (recordOffer_control P hr).1 hi 1
  entry k := by
    have hnew : ∀ c w, findEntry k' st₁.u.map = some (c, w) → c.newBlock = 0 ∧ c.newCount = 0 :=
      fun c w h => by
        rw [hfr.map, hk.entry] at h
        obtain ⟨b, -, hb⟩ := keptEntry_offered P h
        obtain ⟨-, hc⟩ := recordOffer_control P hb
        exact ⟨congrArg Control.newBlock hc, congrArg Control.newCount hc⟩
    have hc : c = nullControl.loaded c.order i 1 := (recordOffer_control P hr).2
    show findEntry k (acceptRecord P st₁.u k' v c.order c.order i 1).map = _
    rw [findEntry_acceptRecord P hnew, keptEntry_append_some P hr, hfr.map, hk.entry, ← hc]
  first hf := by
    show ((acceptRecord P st₁.u k' v c.order c.order i 1).order,
      (acceptRecord P st₁.u k' v c.order c.order i 1).lastf, st₁.lastHash) = _
    rw [acceptRecord_order, acceptRecord_lastf, hfr.order (hk.flush.trans hf), hfr.lastf,
      hfr.lastHash, hk.first hf]
    rw [hf] at ht
    rw [newestTerminator_append_none ht]
  later hf := by
    show ((acceptRecord P st₁.u k' v c.order c.order i 1).lastf, st₁.lastHash) = _
    rw [acceptRecord_lastf, hfr.lastf, hfr.lastHash, hk.later hf, flushTerminator_append_none ht]
  above hf t ht' := by
    show _ ≤ (acceptRecord P st₁.u k' v c.order c.order i 1).order.toNat
    rw [acceptRecord_order]
    rcases mem_terminators_append ht' with ht' | ht'
    · exact (hk.above hf t ht').trans hfr.order_le
    · rw [termOffer_of_recordOffer hr] at ht'; cases ht'

/-- One iteration of the scan: after block `i`, the scan holds what the pass selects from the
blocks so far and block `i`. -/
theorem kept_scanStep (hk : Kept P f bs st) (d : Disk) (count : Nat) (hi : i < 2 ^ 32) :
    Kept P f (bs ++ [(i, d.readBlock i)]) (scanStep P d count st i) := by
  unfold scanStep scanBlock; dsimp only
  cases hread : d.readBlock i with
  | none => exact hk.of_skip (framed_free_error _ _ _) rfl rfl
  | some sb =>
    dsimp only
    by_cases h₁ : (0x7FFFFFFFFFFFFFFF : UInt64) ≤ sb.order - 1
    · rw [if_pos h₁]
      exact hk.of_skip (framed_free_error _ _ _)
        (by simp [termOffer, BlockLayout.Admitted, h₁])
        (by simp [recordOffer, BlockLayout.Admitted, h₁])
    rw [if_neg h₁]
    by_cases h₂ : (0x80000000 : UInt64) ≤ sb.size
    · rw [if_pos h₂]
      exact hk.of_skip (framed_free_error _ _ _)
        (by simp [termOffer, BlockLayout.Admitted, h₂])
        (by simp [recordOffer, BlockLayout.Admitted, h₂])
    rw [if_neg h₂]
    have hfr := framed_noteOrder st sb.order
    by_cases h₃ : f < sb.order
    · rw [if_pos (by rwa [noteOrder_u_flush, hk.flush])]
      exact hk.of_framed (hfr.trans (framed_free_error _ _ _))
        (by simp [termOffer, BlockLayout.Admitted, h₃])
        (by simp [recordOffer, BlockLayout.Admitted, h₃])
        fun hf sb' h => by
          obtain ⟨h, -⟩ := termOffer_eq_some h
          cases h
          exact noteOrder_order_ge (by rw [hk.flush]; exact hf) _
    rw [if_neg (by rwa [noteOrder_u_flush, hk.flush])]
    by_cases h₄ : sb.size = 0
    · rw [if_pos h₄]
      exact hk.terminator hfr (by simp [termOffer, BlockLayout.Admitted, h₁, h₂, h₃, h₄])
        (by simp [recordOffer, h₄]) fun hf => noteOrder_order_ge (by rw [hk.flush]; exact hf) _
    rw [if_neg h₄]
    by_cases h₅ : sb.size.toNat ≤ dataSize
    · have hr : recordOffer P f i (some sb) = some ((P.load (sb.dataPrefix sb.size.toNat)).1,
          nullControl.loaded sb.order i 1, (P.load (sb.dataPrefix sb.size.toNat)).2) := by
        simp [recordOffer, BlockLayout.Admitted, h₁, h₂, h₃, h₄, h₅]
      rw [scanRecord_of_le P _ _ _ _ h₅]
      exact hk.record hfr (by simp [termOffer, h₄]) hr hi
    · exact hk.of_skip (hfr.trans (framed_scanRecord P _ _ hread (size_ne_max_of_header h₂)
        (by omega))) (by simp [termOffer, h₄]) (by simp [recordOffer, h₅])

/-- The scan over the first `n` blocks holds what the pass selects from them. -/
theorem kept_foldl (d : Disk) (count : Nat) (hk : Kept P f [] st) :
    ∀ n, n ≤ 2 ^ 32 → Kept P f ((List.range n).map fun i => (i, d.readBlock i))
      ((List.range n).foldl (scanStep P d count) st)
  | 0, _ => hk
  | n + 1, hn => by
    rw [List.range_succ, List.map_append, List.foldl_append]
    exact kept_scanStep (kept_foldl d count hk n (by omega)) d count (by omega)

variable (P)

/-- A pass of `reload` is the pass selection after a scan that holds what the pass selects from
the blocks it reads. -/
theorem reloadPass_kept (s : Umap K V) :
    ∃ st : ScanState K V, Kept P s.flush (scanned s.data) st ∧ reloadPass P s = selectPass st := by
  refine ⟨_, kept_foldl _ _ ?_ _ (Nat.mod_lt _ (by norm_num)).le, reloadPass_eq_foldl P s⟩
  exact ⟨rfl, ⟨⟨List.nodup_nil, rfl⟩, fun _ h => absurd h (List.not_mem_nil _)⟩,
    fun _ => rfl, fun _ => rfl, fun _ => rfl, fun _ _ h => absurd h (List.not_mem_nil _)⟩

/-- The first pass sets `m_flush` to the order of the newest terminator it accepts, `0` when it
accepts none, and no accepted terminator is newer. -/
theorem reloadPass_first_newest {u : Umap K V} (h : u.flush = u64Max) :
    (reloadPass P u).1.flush = (keptTerminator (newestTerminator (scanned u.data))).1 ∧
      ∀ t ∈ terminators u64Max (scanned u.data),
        t.2.order.toNat ≤ (reloadPass P u).1.flush.toNat := by
  obtain ⟨st, hk, hr⟩ := reloadPass_kept P u
  have hfl : (reloadPass P u).1.flush = (keptTerminator (newestTerminator (scanned u.data))).1 := by
    rw [hr]; unfold selectPass; dsimp only
    rw [if_pos (hk.flush.trans h)]
    exact congrArg Prod.fst (hk.first h)
  exact ⟨hfl, fun t ht => hfl ▸ le_keptTerminator_newest ht⟩

/-- `reload` from the optimistic pass returns within three calls: the first pass sets `m_flush` to
the largest order of the terminators it accepts, below `2^63`; a pass from such a value returns or
selects salvage; and the salvage pass returns with `m_flush = 0` and error bit 32. -/
theorem reload_returns_within_three_passes (s : Umap K V) :
    (∀ u : Umap K V, u.flush = u64Max → (reloadPass P u).1.flush.toNat < 2 ^ 63 ∧
        (reloadPass P u).1.flush = (keptTerminator (newestTerminator (scanned u.data))).1 ∧
        ∀ t ∈ terminators u64Max (scanned u.data),
          t.2.order.toNat ≤ (reloadPass P u).1.flush.toNat) ∧
      (∀ u : Umap K V, u.flush ≠ u64Max → u.flush ≠ u64Minus2 →
        (reloadPass P u).2 = true → (reloadPass P u).1.flush = u64Minus2) ∧
      (∀ u : Umap K V, u.flush = u64Minus2 → (reloadPass P u).2 = false ∧
        (reloadPass P u).1.flush = 0 ∧ (reloadPass P u).1.error &&& 32 = 32) ∧
      (reload P 3 { s with flush := u64Max }).isSome := by
  refine ⟨fun u h => ⟨reloadPass_first P h, reloadPass_first_newest P h⟩,
    fun u => reloadPass_rollback P, fun u => reloadPass_salvage P, ?_⟩
  have hfirst : (reloadPass P { s with flush := u64Max }).1.flush.toNat < 2 ^ 63 :=
    reloadPass_first P rfl
  obtain ⟨hm, hm2⟩ := flush_ne_sentinels hfirst
  simp only [reload]
  split
  · split
    · rename_i h₂
      rw [(reloadPass_salvage P (reloadPass_rollback P hm hm2 h₂)).1]
      rfl
    · rfl
  · rfl

end Offers

end Todokanai.Ssdb
