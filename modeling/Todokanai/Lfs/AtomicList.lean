import Mathlib

/-!
# `lfs::list`: a pushed stack drained in FIFO order

`lfs::list<T>` keeps its items as a singly linked list from `m_head`, newest first. `push`
allocates an item linked to the old head and installs it with a compare-and-swap; `apply(func)`
takes the whole list with an exchange, reverses its links in place, and walks the reversed list,
calling `func` on each item, handing the link over with `list_item::pop_all` and deleting the item
it leaves, and counting the calls.

The model runs one thread, so every compare-and-swap succeeds at its first try. Items live in a
heap from addresses to items, and `new` returns the address `next`, which no item has. A pointer
that leads to no item, undefined behaviour in the source, makes a loop return `none`, and so does
running out of fuel; the loops are given `next` iterations, more than there are items.

Read through `Seg`, the list of a state is the values pushed since the last `apply`, newest first.
Every run of pushes and applies refines a queue: each `apply` calls `func` on the values pushed
since the previous one, in push order, returns their number and leaves the list empty
(`run_refines_queue`).

* `Item`, `ListState`: `lfs::list_item<T>` and an `lfs::list<T>` with its heap.
* `ListState.push`, `reverseLoop`, `drainLoop`, `ListState.apply`: `list::push` and
  `list::apply` with its two loops.
* `Seg`: a null-terminated chain of distinct items holding given values.
* `Op`, `run`, `runQueue`: runs of calls on the list and on the queue it refines.

Source: `src/src/util/ssdb.cpp`, `lfs::list_item` (lines 165–202) and `lfs::list` (lines
204–265).
-/

namespace Todokanai.Lfs

variable {T : Type}

/-- `lfs::list_item<T>`: `m_link`, the item pushed before it, and `m_data`. -/
structure Item (T : Type) where
  link : Option Nat
  data : T

/-- An `lfs::list<T>` object and the heap its items live in. -/
structure ListState (T : Type) where
  /-- `m_head`: the newest item, `none` for `nullptr`. -/
  head : Option Nat
  /-- The item at each address; `none` where nothing is allocated. -/
  heap : Nat → Option (Item T)
  /-- The address the next `new` returns. -/
  next : Nat

/-- `constexpr list() = default`, on a heap. -/
def ListState.empty (heap : Nat → Option (Item T)) (next : Nat) : ListState T :=
  ⟨none, heap, next⟩

/-- `list::push(args...)`: a new item linked to the old head becomes the head. -/
def ListState.push (s : ListState T) (x : T) : ListState T :=
  ⟨some s.next, Function.update s.heap s.next (some ⟨s.head, x⟩), s.next + 1⟩

/-- The reversal loop of `apply`, from the reversed part at `head` and the rest of the list at
`prev`: `pprev = prev->m_link; prev->m_link = head; head = prev; prev = pprev` while `prev`.
Returns the heap and the new head. -/
def reverseLoop : Nat → (Nat → Option (Item T)) → Nat → Option Nat →
    Option ((Nat → Option (Item T)) × Nat)
  | _, heap, head, none => some (heap, head)
  | 0, _, _, some _ => none
  | fuel + 1, heap, head, some prev =>
    match heap prev with
    | none => none
    | some it => reverseLoop fuel (Function.update heap prev (some { it with link := some head }))
        prev it.link

/-- The calling loop of `apply` from `ptr`, with `count` calls made: call `func` on the data, take
the link with `pop_all`, delete the item and count. Returns the heap, the values `func` is called
on, in order, and the count. -/
def drainLoop : Nat → (Nat → Option (Item T)) → Option Nat → Nat →
    Option ((Nat → Option (Item T)) × List T × Nat)
  | _, heap, none, count => some (heap, [], count)
  | 0, _, some _, _ => none
  | fuel + 1, heap, some ptr, count =>
    match heap ptr with
    | none => none
    | some it => (drainLoop fuel (Function.update heap ptr none) it.link (count + 1)).map
        fun r => (r.1, it.data :: r.2.1, r.2.2)

/-- `list::apply(func)`: withdraw the list, reverse it, and call `func` on each item in the new
order. Returns the state, the values `func` is called on, in order, and the count returned. -/
def ListState.apply (s : ListState T) : Option (ListState T × List T × Nat) :=
  match s.head with
  | none => some (s, [], 0)
  | some head =>
    match s.heap head with
    | none => none
    | some it =>
      let reversed := match it.link with
        | none => some (s.heap, head)
        | some prev =>
          reverseLoop s.next (Function.update s.heap head (some { it with link := none })) head
            (some prev)
      reversed.bind fun r =>
        (drainLoop s.next r.1 (some r.2) 0).map fun d => (⟨none, d.1, s.next⟩, d.2.1, d.2.2)

/-! ### Chains of items -/

/-- `Seg heap p as xs`: from `p`, the links run through the distinct addresses `as` to `nullptr`,
and the items there hold `xs`. -/
inductive Seg (heap : Nat → Option (Item T)) : Option Nat → List Nat → List T → Prop
  | nil : Seg heap none [] []
  | cons {a : Nat} {l : Option Nat} {as : List Nat} {x : T} {xs : List T} :
      heap a = some ⟨l, x⟩ → a ∉ as → Seg heap l as xs → Seg heap (some a) (a :: as) (x :: xs)

theorem Seg.nodup {heap : Nat → Option (Item T)} {p : Option Nat} {as : List Nat} {xs : List T}
    (h : Seg heap p as xs) : as.Nodup := by
  induction h with
  | nil => exact List.nodup_nil
  | cons _ ha _ ih => exact List.nodup_cons.mpr ⟨ha, ih⟩

theorem Seg.length_eq {heap : Nat → Option (Item T)} {p : Option Nat} {as : List Nat} {xs : List T}
    (h : Seg heap p as xs) : as.length = xs.length := by
  induction h with
  | nil => rfl
  | cons _ _ _ ih => simp [ih]

/-- A chain does not see a write outside its addresses. -/
theorem Seg.update {heap : Nat → Option (Item T)} {p : Option Nat} {as : List Nat} {xs : List T}
    (h : Seg heap p as xs) {a : Nat} (ha : a ∉ as) (v : Option (Item T)) :
    Seg (Function.update heap a v) p as xs := by
  induction h with
  | nil => exact .nil
  | @cons b l bs x xs hb hbs _ ih =>
    have hne : b ≠ a := fun h => ha (h ▸ List.mem_cons_self _ _)
    exact .cons (by rw [Function.update_noteq hne]; exact hb) hbs
      (ih fun h => ha (List.mem_cons_of_mem _ h))

theorem length_le_of_nodup {as : List Nat} {n : Nat} (hd : as.Nodup) (h : ∀ a ∈ as, a < n) :
    as.length ≤ n := by
  rw [← List.toFinset_card_of_nodup hd, ← Finset.card_range n]
  exact Finset.card_le_card fun a ha => Finset.mem_range.mpr (h a (List.mem_toFinset.mp ha))

/-! ### The loops of `apply` -/

/-- The reversal loop moves the chain at `prev`, item by item, in front of the reversed chain at
`head`, given as many iterations as the chain has items. -/
theorem reverseLoop_spec {as : List Nat} :
    ∀ (fuel : Nat) {heap : Nat → Option (Item T)} {head : Nat} {prev : Option Nat}
      {bs : List Nat} {xs ys : List T}, Seg heap prev as xs → Seg heap (some head) bs ys →
      (∀ a ∈ as, a ∉ bs) → as.length ≤ fuel →
      ∃ heap' head', reverseLoop fuel heap head prev = some (heap', head') ∧
        Seg heap' (some head') (as.reverse ++ bs) (xs.reverse ++ ys) := by
  induction as with
  | nil =>
    intro fuel heap head prev bs xs ys hp hh _ _
    cases hp
    exact ⟨heap, head, by cases fuel <;> rfl, hh⟩
  | cons a as ih =>
    intro fuel heap head prev bs xs ys hp hh hd hf
    obtain _ | fuel := fuel
    · cases hf
    cases hp with
    | @cons _ l _ x xs hx ha hrest =>
      have hab : a ∉ bs := hd a (List.mem_cons_self _ _)
      obtain ⟨heap', head', hr, hs⟩ := ih fuel (hrest.update ha (some ⟨some head, x⟩))
        (.cons (Function.update_same _ _ _) hab (hh.update hab _))
        (fun c hc hcb => by
          rcases List.mem_cons.mp hcb with rfl | hcb
          exacts [ha hc, hd c (List.mem_cons_of_mem _ hc) hcb])
        (Nat.le_of_succ_le_succ hf)
      refine ⟨heap', head', ?_, ?_⟩
      · simp only [reverseLoop, hx]; exact hr
      · simpa using hs

/-- The calling loop calls `func` on the values of the chain at `ptr` in order, counting them, given
as many iterations as the chain has items. -/
theorem drainLoop_spec {as : List Nat} :
    ∀ (fuel : Nat) {heap : Nat → Option (Item T)} {ptr : Option Nat} {xs : List T} (count : Nat),
      Seg heap ptr as xs → as.length ≤ fuel →
      ∃ heap', drainLoop fuel heap ptr count = some (heap', xs, count + xs.length) := by
  induction as with
  | nil =>
    intro fuel heap ptr xs count hp _
    cases hp
    exact ⟨heap, by cases fuel <;> rfl⟩
  | cons a as ih =>
    intro fuel heap ptr xs count hp hf
    obtain _ | fuel := fuel
    · cases hf
    cases hp with
    | @cons _ l _ x xs hx ha hrest =>
      obtain ⟨heap', hd⟩ := ih fuel (count + 1) (hrest.update ha none)
        (Nat.le_of_succ_le_succ hf)
      refine ⟨heap', ?_⟩
      simp only [drainLoop, hx, hd, Option.map_some', List.length_cons]
      rw [Nat.add_assoc, Nat.add_comm 1]

/-- `apply` on a list whose chain holds `xs`, newest first, at addresses below `next`: `func` is
called on `xs` oldest first, the count is their number, and the list is left empty. -/
theorem apply_spec {s : ListState T} {as : List Nat} {xs : List T} (h : Seg s.heap s.head as xs)
    (hb : ∀ a ∈ as, a < s.next) :
    ∃ heap', s.apply = some (⟨none, heap', s.next⟩, xs.reverse, xs.length) := by
  obtain ⟨head, heap, next⟩ := s
  dsimp only at h hb
  have hlen := length_le_of_nodup h.nodup hb
  cases h with
  | nil => exact ⟨heap, rfl⟩
  | @cons a l as x xs hx ha hrest =>
    simp only [ListState.apply, hx]
    cases l with
    | none =>
      cases hrest
      obtain ⟨heap', hd⟩ := drainLoop_spec next 0 (.cons hx ha .nil) hlen
      exact ⟨heap', by simp [hd]⟩
    | some prev =>
      obtain ⟨heap₁, head₁, hr, hs⟩ := reverseLoop_spec next (hrest.update ha (some ⟨none, x⟩))
        (.cons (Function.update_same _ _ _) (List.not_mem_nil a) .nil)
        (fun c hc hca => ha (List.mem_singleton.mp hca ▸ hc)) (by simp at hlen; omega)
      obtain ⟨heap', hd⟩ := drainLoop_spec next 0 hs (by simp at hlen ⊢; omega)
      exact ⟨heap', by simp [hr, hd]⟩

/-! ### Runs of calls -/

/-- A call on the list. -/
inductive Op (T : Type)
  /-- `push(x)`. -/
  | push (x : T)
  /-- `apply(func)`. -/
  | apply

/-- The value a call pushes. -/
def Op.pushed : Op T → Option T
  | .push x => some x
  | .apply => none

/-- Run the calls from state `s`, collecting for each `apply` the values `func` is called on and the
count returned; `none` where a loop fails. -/
def run : List (Op T) → ListState T → Option (ListState T × List (List T × Nat))
  | [], s => some (s, [])
  | .push x :: ops, s => run ops (s.push x)
  | .apply :: ops, s => s.apply.bind fun r =>
      (run ops r.1).map fun q => (q.1, (r.2.1, r.2.2) :: q.2)

/-- The queue that `lfs::list` implements: the values pushed since the last `apply`, oldest first.
An `apply` delivers all of them in order with their number and empties the queue. -/
def runQueue : List (Op T) → List T → List T × List (List T × Nat)
  | [], q => (q, [])
  | .push x :: ops, q => runQueue ops (q ++ [x])
  | .apply :: ops, q => ((runQueue ops []).1, (q, q.length) :: (runQueue ops []).2)

/-- The queue loses and repeats nothing: what it delivers, followed by what it still holds, is
what it held followed by every value pushed, in order; and each count is the number delivered. -/
theorem runQueue_exactly_once (ops : List (Op T)) (q : List T) :
    ((runQueue ops q).2.map Prod.fst).flatten ++ (runQueue ops q).1 =
        q ++ ops.filterMap Op.pushed ∧
      ∀ out ∈ (runQueue ops q).2, out.2 = out.1.length := by
  induction ops generalizing q with
  | nil => simp [runQueue]
  | cons op ops ih =>
    cases op with
    | push x =>
      obtain ⟨h₁, h₂⟩ := ih (q ++ [x])
      exact ⟨by simpa [runQueue, Op.pushed] using h₁, h₂⟩
    | apply =>
      obtain ⟨h₁, h₂⟩ := ih []
      refine ⟨by simpa [runQueue, Op.pushed] using h₁, ?_⟩
      rintro out (_ | ⟨_, hout⟩)
      exacts [rfl, h₂ out hout]

/-- The list holds the queue `q`: its chain holds `q` newest first, at addresses below `next`. -/
def Holds (s : ListState T) (q : List T) : Prop :=
  ∃ as, Seg s.heap s.head as q.reverse ∧ ∀ a ∈ as, a < s.next

theorem holds_push {s : ListState T} {q : List T} (h : Holds s q) (x : T) :
    Holds (s.push x) (q ++ [x]) := by
  obtain ⟨as, hs, hb⟩ := h
  have hn : s.next ∉ as := fun hm => Nat.lt_irrefl _ (hb _ hm)
  refine ⟨s.next :: as, ?_, ?_⟩
  · rw [List.reverse_append, List.reverse_singleton, List.singleton_append]
    exact .cons (Function.update_same _ _ _) hn (hs.update hn _)
  · rintro a (_ | ⟨_, ha⟩)
    exacts [Nat.lt_succ_self _, Nat.lt_succ_of_lt (hb a ha)]

theorem holds_apply {s : ListState T} {q : List T} (h : Holds s q) :
    ∃ s', s.apply = some (s', q, q.length) ∧ Holds s' [] := by
  obtain ⟨as, hs, hb⟩ := h
  obtain ⟨heap', ha⟩ := apply_spec hs hb
  rw [List.reverse_reverse, List.length_reverse] at ha
  exact ⟨_, ha, [], .nil, nofun⟩

/-- Every run refines the queue, from any state that holds it. -/
theorem run_refines (ops : List (Op T)) :
    ∀ {s : ListState T} {q : List T}, Holds s q →
      ∃ s', run ops s = some (s', (runQueue ops q).2) ∧ Holds s' (runQueue ops q).1 := by
  induction ops with
  | nil => intro s q h; exact ⟨s, rfl, h⟩
  | cons op ops ih =>
    intro s q h
    cases op with
    | push x => exact ih (holds_push h x)
    | apply =>
      obtain ⟨s₁, ha, h₁⟩ := holds_apply h
      obtain ⟨s', hr, h'⟩ := ih h₁
      exact ⟨s', by simp [run, ha, hr, runQueue], h'⟩

theorem Seg.eq_none_iff {heap : Nat → Option (Item T)} {p : Option Nat} {as : List Nat}
    {xs : List T} (h : Seg heap p as xs) : p = none ↔ xs = [] := by
  cases h <;> simp

theorem head_eq_none_iff {s : ListState T} {q : List T} (h : Holds s q) :
    s.head = none ↔ q = [] := by
  obtain ⟨as, hs, -⟩ := h
  exact hs.eq_none_iff.trans List.reverse_eq_nil_iff

/-- Single-threaded pushes and applies on an `lfs::list`, from the empty list on any heap: each
`apply(func)` calls `func` once on each value pushed since the previous `apply`, in push order,
and returns their number; over the run no value is delivered twice or lost, and the list is empty
exactly when no value is pending. -/
theorem run_refines_queue (heap : Nat → Option (Item T)) (next : Nat) (ops : List (Op T)) :
    ∃ s, run ops (ListState.empty heap next) = some (s, (runQueue ops []).2) ∧
      ((runQueue ops []).2.map Prod.fst).flatten ++ (runQueue ops []).1 = ops.filterMap Op.pushed ∧
      (∀ out ∈ (runQueue ops []).2, out.2 = out.1.length) ∧
      (s.head = none ↔ (runQueue ops []).1 = []) := by
  have h₀ : Holds (ListState.empty heap next) ([] : List T) := ⟨[], .nil, nofun⟩
  obtain ⟨s, hr, hs⟩ := run_refines ops h₀
  obtain ⟨h₁, h₂⟩ := runQueue_exactly_once ops []
  exact ⟨s, hr, by simpa using h₁, h₂, head_eq_none_iff hs⟩

end Todokanai.Lfs
