import Todokanai.Ssdb.Hash

/-!
# The passes of `umap::reload` and what `init` leaves behind

`reload` selects its pass by `m_flush`. The scan never writes `m_flush`, and it sets `m_order` only
to the order of a block whose header passed the check `_order - 1 < INT64_MAX`, so below `2^63`.
The first pass therefore hands the second a value of `m_flush` below `2^63`, which is neither of
the two sentinels; the second pass either returns or selects the salvage pass, and the salvage pass
always returns. Three calls suffice, which is the fuel `init` gives `reload`.

`init` writes a terminator only through `finalize`, which returns at once when `m_order` is not
above `m_flush`. Every pass but the salvage one ends with `m_flush = m_order`, so a file that
holds no terminator and whose first pass agrees with the empty hash, the empty view among them,
leaves `m_lastf` at `2^32 - 1`. And the first pass sets `m_order` from terminators only, so a head
that does not load, the head of a record cut short by a crash, may carry an order that the next
`write` hands out again.

* `scanBlock_u_flush`, `scanBlock_order_lt`: one block of the scan keeps `m_flush` and a bound on
  `m_order`; `scanLoop_u_flush`, `scanLoop_order_lt`: the whole scan.
* `reloadPass_first`, `reloadPass_rollback`, `reloadPass_salvage`: what each pass selects.
* `init_empty_view_leaves_no_terminator`: `init` on an empty view keeps no terminator.
* `init_order_reused_after_truncated_head`: the first write after opening a file whose only block
  is a truncated head takes that head's order.

Source: `src/src/util/ssdb.hpp`, `umap::reload` (lines 127–294), `finalize` (376–428) and `init`
(444–461).
-/

namespace Todokanai.Ssdb

variable {K V : Type}

/-! ### `m_flush` and `m_order` through the scan -/

@[simp] theorem scanTerminator_u_flush (st : ScanState K V) (i : Nat) (sb : BlockLayout) :
    (scanTerminator st i sb).u.flush = st.u.flush := by
  unfold scanTerminator; dsimp only; split_ifs <;> rfl

/-- A header that passes `_order - 1 < INT64_MAX` carries an order below `2^63`. -/
theorem toNat_lt_of_header {o : UInt64} (h : ¬ 0x7FFFFFFFFFFFFFFF ≤ o - 1) :
    o.toNat < 2 ^ 63 := by
  have h0 : 1 ≤ o.toNat := Nat.one_le_iff_ne_zero.mpr fun h0 =>
    order_ne_zero_of_header h (UInt64.eq_iff_toNat_eq.mpr h0)
  rw [UInt64.le_iff_toNat_le, UInt64.toNat_sub_of_le' (by simpa using h0)] at h
  simp only [UInt64.toNat_ofNat, UInt64.size] at h
  omega

theorem noteOrder_order_lt {st : ScanState K V} {o : UInt64} (h : st.u.order.toNat < 2 ^ 63)
    (ho : o.toNat < 2 ^ 63) : (st.noteOrder o).u.order.toNat < 2 ^ 63 := by
  unfold ScanState.noteOrder; split_ifs
  exacts [ho, h]

theorem scanTerminator_order_lt {st : ScanState K V} {i : Nat} {sb : BlockLayout}
    (h : st.u.order.toNat < 2 ^ 63) (ho : sb.order.toNat < 2 ^ 63) :
    (scanTerminator st i sb).u.order.toNat < 2 ^ 63 := by
  unfold scanTerminator; dsimp only; split_ifs
  exacts [ho, h, h]

/-- An order below `2^63` is neither sentinel of `m_flush`. -/
theorem flush_ne_sentinels {f : UInt64} (h : f.toNat < 2 ^ 63) : f ≠ u64Max ∧ f ≠ u64Minus2 :=
  ⟨fun he => absurd h (by rw [he]; decide), fun he => absurd h (by rw [he]; decide)⟩

variable [DecidableEq K] (P : Params K V)

@[simp] theorem acceptRecord_flush (u : Umap K V) (k : K) (v : V) (o sorder : UInt64)
    (block n : Nat) : (acceptRecord P u k v o sorder block n).flush = u.flush := by
  unfold acceptRecord; split <;> (try split) <;> rfl

@[simp] theorem acceptRecord_order (u : Umap K V) (k : K) (v : V) (o sorder : UInt64)
    (block n : Nat) : (acceptRecord P u k v o sorder block n).order = u.order := by
  unfold acceptRecord; split <;> (try split) <;> rfl

@[simp] theorem scanRecord_u_flush (d : Disk) (count : Nat) (st : ScanState K V) (i : Nat)
    (sb : BlockLayout) : (scanRecord P d count st i sb).1.u.flush = st.u.flush := by
  unfold scanRecord; dsimp only; split <;> simp only [acceptRecord_flush]

@[simp] theorem scanRecord_u_order (d : Disk) (count : Nat) (st : ScanState K V) (i : Nat)
    (sb : BlockLayout) : (scanRecord P d count st i sb).1.u.order = st.u.order := by
  unfold scanRecord; dsimp only; split <;> simp only [acceptRecord_order]

@[simp] theorem scanBlock_u_flush (d : Disk) (count : Nat) (st : ScanState K V) (i : Nat) :
    (scanBlock P d count st i).1.u.flush = st.u.flush := by
  unfold scanBlock; dsimp only
  split
  · rfl
  · split_ifs <;> simp only [scanTerminator_u_flush, scanRecord_u_flush, noteOrder_u_flush]

/-- One block of the scan leaves `m_order` below `2^63` if it was. -/
theorem scanBlock_order_lt (d : Disk) (count : Nat) {st : ScanState K V} (i : Nat)
    (h : st.u.order.toNat < 2 ^ 63) : (scanBlock P d count st i).1.u.order.toNat < 2 ^ 63 := by
  unfold scanBlock; dsimp only
  split
  · exact h
  · rename_i sb _
    by_cases h₁ : (0x7FFFFFFFFFFFFFFF : UInt64) ≤ sb.order - 1
    · rw [if_pos h₁]; exact h
    rw [if_neg h₁]
    by_cases h₂ : (0x80000000 : UInt64) ≤ sb.size
    · rw [if_pos h₂]; exact h
    rw [if_neg h₂]
    have hn := noteOrder_order_lt h (toNat_lt_of_header h₁)
    split_ifs
    · exact hn
    · exact scanTerminator_order_lt hn (toNat_lt_of_header h₁)
    · rwa [scanRecord_u_order]

theorem scanLoop_u_flush (d : Disk) (count fuel : Nat) :
    ∀ (st : ScanState K V) (i : Nat), (scanLoop P d count fuel st i).u.flush = st.u.flush := by
  induction fuel with
  | zero => intro st i; rfl
  | succ fuel ih =>
    intro st i
    simp only [scanLoop]
    split
    · rw [ih, scanBlock_u_flush]
    · rfl

theorem scanLoop_order_lt (d : Disk) (count fuel : Nat) :
    ∀ {st : ScanState K V} {i : Nat}, st.u.order.toNat < 2 ^ 63 →
      (scanLoop P d count fuel st i).u.order.toNat < 2 ^ 63 := by
  induction fuel with
  | zero => intro st i h; exact h
  | succ fuel ih =>
    intro st i h
    simp only [scanLoop]
    split
    · exact ih (scanBlock_order_lt P d count i h)
    · exact h

/-! ### Pass selection -/

/-- The scan of one pass, from the reset state. -/
theorem reloadPass_eq (s : Umap K V) : ∃ st : ScanState K V, st.u.flush = s.flush ∧
    st.u.order.toNat < 2 ^ 63 ∧ reloadPass P s = selectPass st :=
  ⟨_, by rw [scanLoop_u_flush],
    scanLoop_order_lt P _ _ _ (show (0 : UInt64).toNat < 2 ^ 63 by decide), rfl⟩

/-- The first pass ends with `m_flush` set to an order below `2^63`, so neither sentinel. -/
theorem reloadPass_first {s : Umap K V} (h : s.flush = u64Max) :
    (reloadPass P s).1.flush.toNat < 2 ^ 63 := by
  obtain ⟨st, hf, ho, hr⟩ := reloadPass_eq P s
  rw [hr]
  unfold selectPass; dsimp only
  rw [if_pos (hf.trans h)]
  exact ho

/-- A pass that is neither the first nor the salvage pass calls `reload` again only to
salvage. -/
theorem reloadPass_rollback {s : Umap K V} (h₁ : s.flush ≠ u64Max)
    (h₂ : s.flush ≠ u64Minus2) (h : (reloadPass P s).2 = true) :
    (reloadPass P s).1.flush = u64Minus2 := by
  obtain ⟨st, hf, -, hr⟩ := reloadPass_eq P s
  rw [hr] at h ⊢
  unfold selectPass at h ⊢; dsimp only at h ⊢
  rw [hf] at h ⊢
  rw [if_neg h₁, if_neg h₂] at h ⊢
  split_ifs at h ⊢
  rfl

/-- The salvage pass returns, with `m_flush = 0` and error bit 32. -/
theorem reloadPass_salvage {s : Umap K V} (h : s.flush = u64Minus2) :
    (reloadPass P s).2 = false ∧ (reloadPass P s).1.flush = 0 ∧
      (reloadPass P s).1.error &&& 32 = 32 := by
  obtain ⟨st, hf, -, hr⟩ := reloadPass_eq P s
  rw [hr]
  unfold selectPass; dsimp only
  rw [hf, h, if_neg (by decide), if_pos rfl]
  exact ⟨rfl, rfl, UInt32.or_and_self _ _⟩

/-! ### What `init` leaves -/

/-- `init` on an empty view keeps no terminator: the first pass agrees with the empty hash and sets
`m_flush = m_order = 0`, so `finalize` returns before writing one, and `m_lastf` stays
`2^32 - 1`. -/
theorem init_empty_view_leaves_no_terminator (s : Umap K V) (h : s.data.count = 0) :
    ∃ u, init P s = some u ∧ u.lastf = 0xFFFFFFFF ∧ u.data.count = 0 := by
  have hzero : (0 : Digest).bytes = List.replicate 64 0 := by decide
  have hpass : reloadPass P { s with flush := u64Max } =
      ({ s with map := [], hash := 0, order := 0, lastf := 0xFFFFFFFF, flush := 0,
                free := addFree [] 0 0 }, false) := by
    simp only [reloadPass, h, Nat.zero_mod, scanLoop, selectPass, hzero, u64Max]
    rfl
  refine ⟨{ s with map := [], hash := 0, order := 0, lastf := 0xFFFFFFFF, flush := 0,
                   free := addFree [] 0 0 }, ?_, rfl, h⟩
  simp only [init, reload, hpass, Option.bind_some, finalize]
  rfl

theorem init_empty_view_leaves_no_terminator_fresh :
    (Umap.fresh (Disk.ofFile [] []) : Umap UInt8 UInt8).data.count = 0 ∧
      ∃ u, init byteParams (Umap.fresh (Disk.ofFile [] [])) = some u ∧ u.lastf = 0xFFFFFFFF ∧
        u.data.count = 0 :=
  ⟨rfl, init_empty_view_leaves_no_terminator byteParams _ rfl⟩

/-- Opening a file whose only block is the head of a record cut short, of order `1`, leaves
`m_order = 0`: the first pass agrees with the empty hash and counts orders of terminators only.
The next write then stores its record with order `1`, the order of the head still on disk. -/
theorem init_order_reused_after_truncated_head :
    ∃ s, reopen byteParams [some truncatedHead] [] = some s ∧ s.order < truncatedHead.order ∧
      (Disk.ofFile [some truncatedHead] []).readBlock 0 = some truncatedHead ∧
      ((Action.write [.add true 0 1]).run byteParams insertionOrder s).map
        (fun s' => (findEntry 0 s'.map).map (·.1.order)) = some (some truncatedHead.order) := by
  have h : (reopen byteParams [some truncatedHead] []).map
      (fun s => (s.order, ((Action.write [.add true 0 1]).run byteParams insertionOrder s).map
        (fun s' => (findEntry 0 s'.map).map (·.1.order)))) = some (0, some (some 1)) := by
    decide
  obtain ⟨s, hs, he⟩ := Option.map_eq_some'.mp h
  simp only [Prod.mk.injEq] at he
  exact ⟨s, hs, by rw [he.1]; decide, rfl, he.2⟩

end Todokanai.Ssdb
