import Todokanai.Basic.Machine

/-!
# The free-space index `ssdb::free_space`

`free_space` keeps the free blocks of the container as a `std::map` from the first block of a free
run to its length. The empty map is a sentinel for "all `2^32` blocks are free": `get_free` reads it
so and replaces it by the one run it leaves, and a removal that would empty the map inserts the
dummy entry `(0, 0)` instead. `add_free` inserts a run and merges it with the run before and the run
after it when they touch; its length is clamped so that the run ends at `2^32 - 1`. `get_free`
chooses the shortest run that is long enough (best fit) and cuts the request from its front.

The map is modelled as the list of its entries in increasing key order, and every `std::uint32_t`
expression of the source is the same `UInt32` expression here, wrap-around included.

* `emplace`, `eraseKey`: `m_free.emplace(k, v)` and `m_free.erase(k)` on a key-sorted list.
* `addFree`: `free_space::add_free`, through the steps `emplaceAt`, `clampLen` and `mergeNext`.
* `bestFit`, `getFree`: the scan and the body of `free_space::get_free`; `none` is the throw of
  `std::bad_alloc`.
* `Covers m p`, `IsFree m p`: the blocks the entries cover, and the blocks the map denotes free.

Source: `src/src/util/ssdb.cpp`, `free_space::add_free` (lines 43–87) and
`free_space::get_free` (lines 89–147); the declaration in `src/src/util/ssdb.hpp`, lines 84–93.
-/

namespace Todokanai.Ssdb

/-- `free_space::m_free`, a `std::map<std::uint32_t, std::uint32_t>` from the first block of a free
run to its length, as its entries in increasing key order. -/
abbrev FreeMap := List (UInt32 × UInt32)

/-! ### Map primitives -/

/-- `m_free.emplace(k, v)`: insert `(k, v)` at its place unless `k` is already a key. -/
def emplace (k v : UInt32) : FreeMap → FreeMap
  | [] => [(k, v)]
  | (k', v') :: rest =>
    if k < k' then (k, v) :: (k', v') :: rest
    else if k = k' then (k', v') :: rest
    else (k', v') :: emplace k v rest

/-- `m_free.erase(k)`. -/
def eraseKey (k : UInt32) (m : FreeMap) : FreeMap :=
  m.filter fun e => e.1 != k

/-! ### `add_free` -/

/-- `m_free.emplace(block, count)` seen from `add_free`: the length stored at `block` afterwards and
the entries after it, given the entries from `block` on. -/
def emplaceAt (block count : UInt32) : FreeMap → UInt32 × FreeMap
  | (k, l) :: hi => if k = block then (l, hi) else (count, (k, l) :: hi)
  | [] => (count, [])

/-- The length at `block` after "extend if necessary" and "check overflow": at least `count`, and
cut to end at `UINT32_MAX` when `block + length` wraps. -/
def clampLen (block count len : UInt32) : UInt32 :=
  let len := if len < count then count else len
  if len + block < block then 0xFFFFFFFF - block else len

/-- The last step of `add_free`: merge the run `(s, l)` with the entry after it when
`s + l >= s'`, adding `l' - (s + l - s')`. -/
def mergeNext (s l : UInt32) : FreeMap → FreeMap
  | [] => [(s, l)]
  | (s', l') :: hi =>
    if s' ≤ s + l then (s, l + (l' - (s + l - s'))) :: hi else (s, l) :: (s', l') :: hi

/-- `free_space::add_free(block, count)`: insert the run, merge it into the entry before it when
that one reaches `block`, then merge the result with the entry after it. -/
def addFree (m : FreeMap) (block count : UInt32) : FreeMap :=
  if count = 0 then m else
  let lo := m.takeWhile fun e => e.1 < block
  let (len, hi) := emplaceAt block count (m.dropWhile fun e => e.1 < block)
  let len := clampLen block count len
  match lo.getLast? with
  | some (s, l) =>
    if block ≤ s + l then lo.dropLast ++ mergeNext s (l + (len - (s + l - block))) hi
    else lo ++ mergeNext block len hi
  | none => mergeNext block len hi

/-! ### `get_free` -/

/-- The scan of `get_free` from the candidate `res`: take an entry long enough when there is no
candidate yet or it is shorter than the candidate, and stop at an exact fit. -/
def bestFit (count : UInt32) : Option (UInt32 × UInt32) → FreeMap → Option (UInt32 × UInt32)
  | res, [] => res
  | res, (s, l) :: rest =>
    if count ≤ l ∧ res.all (fun r => l < r.2) then
      if l = count then some (s, l) else bestFit count (some (s, l)) rest
    else bestFit count res rest

/-- `free_space::get_free(count)`: the first block of the chosen run and the new map, or `none`
where the source throws `std::bad_alloc`. An empty map is read as all blocks free: it hands out
block `0` and keeps the run `(count, 0 - count)`. -/
def getFree (m : FreeMap) (count : UInt32) : Option (UInt32 × FreeMap) :=
  match bestFit count none m with
  | none => if m = [] then some (0, if count = 0 then [] else [(count, 0 - count)]) else none
  | some (pos, len) =>
    let rest := eraseKey pos m
    if len - count ≠ 0 then some (pos, emplace (pos + count) (len - count) rest)
    else some (pos, if rest = [] then [(0, 0)] else rest)

/-! ### What the map denotes -/

/-- Block `p` lies in the run of some entry, `[s, s + l)` computed in the naturals. -/
def Covers (m : FreeMap) (p : Nat) : Prop :=
  ∃ e ∈ m, e.1.toNat ≤ p ∧ p < e.1.toNat + e.2.toNat

/-- Block `p` is free: every block is when the map is empty, else the blocks its entries cover. -/
def IsFree (m : FreeMap) (p : Nat) : Prop :=
  m = [] ∨ Covers m p

instance (m : FreeMap) (p : Nat) : Decidable (Covers m p) :=
  inferInstanceAs (Decidable (∃ e ∈ m, _))

instance (m : FreeMap) (p : Nat) : Decidable (IsFree m p) :=
  inferInstanceAs (Decidable (_ ∨ _))

@[simp] theorem covers_nil (p : Nat) : ¬ Covers [] p := by simp [Covers]

@[simp] theorem covers_cons (e : UInt32 × UInt32) (m : FreeMap) (p : Nat) :
    Covers (e :: m) p ↔ (e.1.toNat ≤ p ∧ p < e.1.toNat + e.2.toNat) ∨ Covers m p := by
  simp [Covers]

@[simp] theorem covers_append (m m' : FreeMap) (p : Nat) :
    Covers (m ++ m') p ↔ Covers m p ∨ Covers m' p := by
  simp only [Covers, List.mem_append, or_and_right, exists_or]

theorem isFree_of_ne_nil {m : FreeMap} (h : m ≠ []) (p : Nat) : IsFree m p ↔ Covers m p := by
  simp [IsFree, h]

/-! ### Wrap-around of a merged length -/

/-- `get_free(1)` on the empty map leaves the run `(1, 2^32 - 1)`, which covers every block but `0`.
Freeing block `0` then merges `(0, 1)` with it into a run of `2^32` blocks, whose length `uint32`
stores as `0`: afterwards no block is free. -/
theorem addFree_merge_wraps_to_empty :
    getFree [] 1 = some (0, [(1, 0xFFFFFFFF)]) ∧
      (∀ p, 1 ≤ p → p < 2 ^ 32 → IsFree [(1, 0xFFFFFFFF)] p) ∧
      ∀ p, ¬ IsFree (addFree [(1, 0xFFFFFFFF)] 0 1) p := by
  have hmerge : addFree [(1, 0xFFFFFFFF)] 0 1 = [(0, 0)] := by decide
  refine ⟨by decide, fun p h1 h2 => Or.inr ?_, fun p => ?_⟩
  · simp only [covers_cons, covers_nil, or_false]
    exact ⟨h1, by simpa using h2⟩
  · simp [hmerge, IsFree]

end Todokanai.Ssdb
