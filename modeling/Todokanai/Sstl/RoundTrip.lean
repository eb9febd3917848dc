import Todokanai.Sstl.Traverse

/-!
# The round trip of `sstl`

`sstl::load` reads back what `sstl::save` wrote, for every value of every type whose simple
containers hold bytes. The wide simple containers are excluded: their writer stores a size in
bytes of container objects and their reader takes it for a count of elements
(`load_save_wide_array_loses_elements`). The other conditions are the limits of the format:
a simple type takes fewer than `2^32` bytes, whose sized tag is the one its reader expects;
containers hold fewer than `2^64` elements, whose count fits the eight bytes of a size; and
documents nest below level `128`, where the reader stops descending and skips them. The simple
types are the integral and enum types of `Ty.simple`: for a floating-point `-0.0` the writer's test
`arg == T{}` holds, and the round trip gives `+0.0`.

The reader need not start at the beginning of its input, nor end at its end: standing on an
encoding followed by any bytes, it reads the value and stops right after the encoding. This is
what lets the members of a user type and the elements of a container be read one after another.

* `Ty.WF`, `Ty.depth`, `Ty.Typed`: the types the round trip covers, their nesting of documents,
  and the values of a type.
* `Reader.At`: the reader stands on a list of bytes; one lemma per operation of `context_data`
  on an encoding.
* `readWhile_flatMap`: the element loop of the complex containers reads every encoded element.
* `Ty.load_write`, `loadFields_writeFields`: reading an encoding gives the value back.
* `load_save`: the round trip of `sstl::save` and `sstl::load`.

Source: `src/src/util/sstl.hpp`, `context_data` with `traverse_container*` (lines 269–640),
`traverse` (lines 732–1340), `load`, `append` and `save` (lines 1342–1392).
-/

namespace Todokanai.Sstl

open Byte

/-! ### The types and values the round trip covers -/

mutual
/-- The types whose writer and reader agree: simple types below `2^32` bytes and simple
containers of bytes (arrays shorter than `2^64`), at any nesting. -/
def Ty.WF : Ty → Bool
  | .simple size => decide (size ≤ 0xFFFFFFFF)
  | .bool => true
  | .simpleVec elem _ => elem == 1
  | .simpleArray elem n => elem == 1 && decide (n < 2 ^ 64)
  | .vec t => t.WF
  | .deque t => t.WF
  | .user fs => Field.WF fs

/-- Every member type among `fs` is well formed. -/
def Field.WF : List Field → Bool
  | [] => true
  | .val t :: fs => t.WF && Field.WF fs
  | .null :: fs => Field.WF fs
  | .name _ :: fs => Field.WF fs
end

mutual
/-- How deep the documents of a `t` nest. -/
def Ty.depth : Ty → Nat
  | .vec t => t.depth + 1
  | .deque t => t.depth + 1
  | .user fs => Field.depth fs + 1
  | _ => 0

/-- The deepest nesting among the member types of `fs`. -/
def Field.depth : List Field → Nat
  | [] => 0
  | .val t :: fs => max t.depth (Field.depth fs)
  | .null :: fs => Field.depth fs
  | .name _ :: fs => Field.depth fs
end

/-- A number below `b`. -/
def Val.numBelow (b : Nat) : Val → Bool
  | .num n => decide (n < b)
  | _ => false

mutual
/-- The values of a `t`: numbers that fit the type, containers of fewer than `2^64` elements of
the element type (an array of exactly its length), and one value per member of a user type. -/
def Ty.Typed : Ty → Val → Bool
  | .simple size, .num n => decide (n < 256 ^ size)
  | .bool, .bit _ => true
  | .simpleVec elem _, .items vs =>
    decide (vs.length < 2 ^ 64) && vs.all (Val.numBelow (256 ^ elem))
  | .simpleArray elem n, .items vs => decide (vs.length = n) && vs.all (Val.numBelow (256 ^ elem))
  | .vec t, .items vs => decide (vs.length < 2 ^ 64) && vs.all t.Typed
  | .deque t, .items vs => vs.all t.Typed
  | .user fs, .fields vs => Field.Typed fs vs
  | _, _ => false

/-- The values `vs` of the members among `fs`, in order. -/
def Field.Typed : List Field → List Val → Bool
  | [], vs => vs.isEmpty
  | .val t :: fs, v :: vs => t.Typed v && Field.Typed fs vs
  | .val _ :: _, [] => false
  | .null :: fs, vs => Field.Typed fs vs
  | .name _ :: fs, vs => Field.Typed fs vs
end

mutual
/-- A default-constructed object is a value of its type. -/
theorem Ty.typed_default : (t : Ty) → t.Typed t.default = true
  | .simple _ => by simp [Ty.Typed, Ty.default]
  | .bool => rfl
  | .simpleVec _ _ => rfl
  | .simpleArray _ n => by simp [Ty.Typed, Ty.default, Val.numBelow]
  | .vec _ => rfl
  | .deque _ => rfl
  | .user fs => by rw [Ty.default, Ty.Typed]; exact Field.typed_defaults fs

theorem Field.typed_defaults : (fs : List Field) → Field.Typed fs (Field.defaults fs) = true
  | [] => rfl
  | .val t :: fs => by
    rw [Field.defaults, Field.Typed, Ty.typed_default t, Field.typed_defaults fs]; rfl
  | .null :: fs => by rw [Field.defaults, Field.Typed]; exact Field.typed_defaults fs
  | .name _ :: fs => by rw [Field.defaults, Field.Typed]; exact Field.typed_defaults fs
end

/-! ### The reader on an encoding -/

namespace Reader

/-- The reader stands on `l`: the input from `begin` to its end is `l`. -/
structure At (r : Reader) (l : List UInt8) : Prop where
  le : r.pos ≤ r.data.length
  drop : r.data.drop r.pos = l

theorem at_start (data : List UInt8) (level : Nat) : (⟨data, 0, level⟩ : Reader).At data :=
  ⟨Nat.zero_le _, List.drop_zero _⟩

@[simp] theorem advance_zero (r : Reader) : r.advance 0 = r := rfl

@[simp] theorem advance_advance (r : Reader) (a b : Nat) :
    (r.advance a).advance b = r.advance (a + b) := by
  simp only [advance, Nat.add_assoc]

@[simp] theorem advance_level (r : Reader) (a : Nat) : (r.advance a).level = r.level := rfl

theorem At.length_le {r : Reader} {l : List UInt8} (h : r.At l) : l.length ≤ r.data.length := by
  rw [← h.drop, List.length_drop]; exact Nat.sub_le _ _

theorem At.advance {r : Reader} {w rest : List UInt8} (h : r.At (w ++ rest)) :
    (r.advance w.length).At rest := by
  have hl := congrArg List.length h.drop
  simp only [List.length_drop, List.length_append] at hl
  refine ⟨by simp only [Reader.advance]; have := h.le; omega, ?_⟩
  simp only [Reader.advance]
  rw [← List.drop_drop, h.drop, List.drop_left]

theorem At.advance_one {r : Reader} {b : UInt8} {rest : List UInt8} (h : r.At (b :: rest)) :
    (r.advance 1).At rest :=
  @At.advance r [b] rest h

theorem At.remaining {r : Reader} {l : List UInt8} (h : r.At l) : r.remaining = l.length := by
  rw [Reader.remaining, if_pos h.le, ← h.drop, List.length_drop]

theorem At.get? {r : Reader} {b : UInt8} {l : List UInt8} (h : r.At (b :: l)) :
    r.data.get? r.pos = some b := by
  rw [List.get?_eq_getElem?, ← List.head?_drop, h.drop]; rfl

theorem At.peek {r : Reader} {b : UInt8} {l : List UInt8} (h : r.At (b :: l)) : r.peek = .ok b := by
  rw [Reader.peek, h.get?]

theorem At.bytes {r : Reader} {w rest : List UInt8} (h : r.At (w ++ rest)) :
    r.bytes w.length = .ok w := by
  have hl := congrArg List.length h.drop
  simp only [List.length_drop, List.length_append] at hl
  rw [Reader.bytes, if_pos (Or.inr (by have := h.le; omega)), h.drop, List.take_left]

theorem At.read {r : Reader} {w rest : List UInt8} (h : r.At (w ++ rest)) :
    r.read w.length = .ok (w, r.advance w.length) := by
  rw [Reader.read, if_pos (by rw [h.remaining, List.length_append]; omega), h.bytes]; rfl

/-- A size of `w` bytes followed by at least that many bytes is accepted. -/
theorem At.readSizeOf {r : Reader} {w n : Nat} {rest : List UInt8} (hn : n < 256 ^ w)
    (h : r.At (beBytes w n ++ rest)) (hr : n ≤ rest.length) :
    r.readSizeOf w = .ok (n, r.advance w) := by
  have hread := h.read
  have hadv := h.advance
  rw [length_beBytes] at hread hadv
  simp only [Reader.readSizeOf, hread, Except.map, beNat_beBytes, Nat.mod_eq_of_lt hn,
    hadv.remaining, if_pos hr]

/-- A size written by `operator+=(size_type)` after the sized or the value tag of its width,
followed by at least that many bytes, is read back. -/
theorem At.readSize {r : Reader} {tag : UInt8} {n : Nat} {rest : List UInt8} (hn : n < 2 ^ 64)
    (ht : tag = sizedTag n ∨ tag = valueTag n) (h : r.At (sizeBytes n ++ rest))
    (hr : n ≤ rest.length) : r.readSize tag = .ok (n, r.advance (sizeBytes n).length) := by
  unfold sizeBytes at h ⊢
  unfold sizedTag valueTag at ht
  by_cases h₁ : n < 256
  · simp only [if_pos h₁] at h ht ⊢
    have h' : r.At (beBytes 1 n ++ rest) := by
      rwa [show beBytes 1 n = [n.toUInt8] by rw [beBytes_succ]; simp [beBytes]]
    rw [Reader.readSize, if_pos (by rcases ht with rfl | rfl <;> decide),
      h'.readSizeOf (by simpa using h₁) hr]
    rfl
  by_cases h₂ : n ≤ 0xFFFFFFFF
  · simp only [if_neg h₁, if_pos h₂] at h ht ⊢
    rw [Reader.readSize, if_neg (by rcases ht with rfl | rfl <;> decide),
      if_pos (by rcases ht with rfl | rfl <;> decide), h.readSizeOf (by omega) hr, length_beBytes]
  · simp only [if_neg h₁, if_neg h₂] at h ht ⊢
    rw [Reader.readSize, if_neg (by rcases ht with rfl | rfl <;> decide),
      if_neg (by rcases ht with rfl | rfl <;> decide),
      if_pos (by rcases ht with rfl | rfl <;> decide), h.readSizeOf (by omega) hr, length_beBytes]

/-- `skip(0)` on `null_value` steps over it. -/
theorem At.skip_null {r : Reader} {rest : List UInt8} (h : r.At (nullValue :: rest)) :
    r.skip 0 = .ok (r.advance 1) := by
  simp only [Reader.skip, Reader.skipLoop, h.get?, Reader.skipByte]
  rfl

/-- `skip(1)` on the terminator leaves the document. -/
theorem At.skip_terminator {r : Reader} {rest : List UInt8} (h : r.At (terminator :: rest)) :
    r.skip 1 = .ok (r.advance 1) := by
  simp only [Reader.skip, Reader.skipLoop, h.get?, Reader.skipByte]
  rfl

end Reader

/-! ### Tags -/

theorem sizedTag_ne_terminator (n : Nat) : sizedTag n ≠ terminator := by
  unfold sizedTag; split_ifs <;> decide

theorem sizedTag_ne_bitFalse (n : Nat) : sizedTag n ≠ bitFalse := by
  unfold sizedTag; split_ifs <;> decide

theorem sizedTag_sized (n : Nat) :
    sizedTag n = u8Sized ∨ sizedTag n = u32Sized ∨ sizedTag n = u64Sized := by
  unfold sizedTag; split_ifs <;> simp

theorem valueTag_value (n : Nat) :
    valueTag n = u8Value ∨ valueTag n = u32Value ∨ valueTag n = u64Value := by
  unfold valueTag; split_ifs <;> simp

theorem valueTag_ne_bitFalse (n : Nat) : valueTag n ≠ bitFalse := by
  unfold valueTag; split_ifs <;> decide

theorem simpleTag_ne_terminator (size : Nat) : simpleTag size ≠ terminator := by
  unfold simpleTag; split_ifs <;> decide

theorem simpleTag_ne_bitFalse (size : Nat) : simpleTag size ≠ bitFalse := by
  unfold simpleTag; split_ifs <;> decide

/-- The sized tag that `write_sized` writes for a simple type is the one its reader expects. -/
theorem sizedTag_eq_simpleTag {size : Nat} (hs : size ≤ 0xFFFFFFFF) (hz : simpleSized size = true) :
    sizedTag size = simpleTag size := by
  unfold simpleSized at hz
  unfold sizedTag simpleTag at *
  split_ifs at hz ⊢ <;> first | rfl | omega | exact absurd hz (by decide)

/-! ### Simple types and containers of bytes -/

/-- `traverse<simple>` reads back a number of the type: `bit_false` for zero, the sized tag with
the size and the bytes, or the value tag with the bytes. -/
theorem loadSimple_write {size n : Nat} {arg : Val} {r : Reader} {rest : List UInt8}
    (hs : size ≤ 0xFFFFFFFF) (hn : n < 256 ^ size)
    (h : r.At ((Ty.simple size).write (.num n) ++ rest)) :
    loadSimple size arg r = .ok (.num n, r.advance ((Ty.simple size).write (.num n)).length) := by
  simp only [Ty.write, Val.toNum] at h ⊢
  split_ifs at h ⊢ with h0 hz
  · subst h0
    rw [loadSimple, h.get?]; rfl
  · have hsize : size ≠ 0 := by rintro rfl; simp at hn; exact h0 hn
    rw [writeSized, if_neg hsize] at h ⊢
    have htag := sizedTag_eq_simpleTag hs hz
    simp only [List.cons_append, List.append_assoc] at h
    have h₁ := h.advance_one
    have h₂ : (r.advance 1).readSize (simpleTag size) = _ :=
      h₁.readSize (by omega) (.inl htag.symm) (by simp)
    have h₃ := h₁.advance.read
    simp only [length_beBytes, Reader.advance_advance] at h₂ h₃
    rw [loadSimple, h.get?]
    simp only [htag, if_neg (simpleTag_ne_bitFalse size), if_pos rfl, hz, if_true, h₂, h₃, bind,
      Except.bind, pure, Except.pure, beNat_beBytes, Nat.mod_eq_of_lt hn,
      List.length_cons, List.length_append, length_beBytes]
    congr 3; omega
  · have h₁ := h.advance_one
    have h₂ := h₁.read
    rw [length_beBytes] at h₂
    rw [loadSimple, h.get?]
    simp only [if_neg (simpleTag_ne_bitFalse size), if_pos rfl, hz, if_true, Bool.false_eq_true,
      if_false, h₂, bind, Except.bind, pure, Except.pure, beNat_beBytes, Nat.mod_eq_of_lt hn,
      Reader.advance_advance, List.length_cons, length_beBytes]
    congr 3; omega

/-- `traverse<bool>` reads back a `bool`. -/
theorem loadBool_write {b : Bool} {arg : Val} {r : Reader} {rest : List UInt8}
    (h : r.At (Ty.bool.write (.bit b) ++ rest)) :
    loadBool arg r = .ok (.bit b, r.advance (Ty.bool.write (.bit b)).length) := by
  cases b <;> simp only [Ty.write, Val.bit.injEq, if_true, if_false, Bool.false_eq_true,
    List.singleton_append] at h ⊢ <;>
  · rw [loadBool, if_neg (by rw [h.remaining]; simp), h.peek]
    rfl

/-- The bytes of byte-sized numbers, read back as numbers. -/
theorem map_toUInt8_toNat {vs : List Val} (hb : vs.all (Val.numBelow 256) = true) :
    ((vs.map Val.toNum).map Nat.toUInt8).map (fun b => Val.num b.toNat) = vs := by
  induction vs with
  | nil => rfl
  | cons v vs ih =>
    simp only [List.all_cons, Bool.and_eq_true] at hb
    cases v <;> simp only [Val.numBelow, Bool.false_eq_true, false_and, decide_eq_true_eq] at hb
    simp only [List.map_cons, Val.toNum, toNat_toUInt8, Nat.mod_eq_of_lt hb.1, ih hb.2]

/-- `traverse_container_simple` reads back a container of bytes: its size, taken for the number
of elements, and that many bytes. `resize` gives as many elements as the container holds. -/
theorem loadSimpleContainer_write {obj : Nat} {vs : List Val} {resize : Nat → List Val}
    {arg : Val} {r : Reader} {rest : List UInt8}
    (hl : vs.length < 2 ^ 64) (hb : vs.all (Val.numBelow 256) = true)
    (hres : resize vs.length = List.replicate vs.length (.num 0))
    (h : r.At (writeSimpleContainer 1 obj (vs.map Val.toNum) ++ rest)) :
    loadSimpleContainer 1 resize arg r =
      .ok (.items vs, r.advance (writeSimpleContainer 1 obj (vs.map Val.toNum)).length) := by
  unfold writeSimpleContainer at h ⊢
  by_cases hv : vs = []
  · subst hv
    simp only [List.map_nil, if_true, List.singleton_append] at h ⊢
    rw [loadSimpleContainer, if_neg (by rw [h.remaining]; simp), h.peek]
    simp only [if_true, bind, Except.bind, pure, Except.pure]
    rw [show resize 0 = [] from hres]
    rfl
  · have hn : vs.length ≠ 0 := by simpa using hv
    simp only [List.map_eq_nil_iff, hv, if_false, if_true, writeSized, List.length_map, if_neg hn,
      List.cons_append, List.append_assoc] at h ⊢
    have h₁ := h.advance_one
    have h₂ : (r.advance 1).readSize (sizedTag vs.length) = _ :=
      h₁.readSize hl (.inl rfl) (by simp)
    have h₃ := h₁.advance.bytes
    simp only [List.length_map, Reader.advance_advance] at h₂ h₃
    rw [loadSimpleContainer, if_neg (by rw [h.remaining]; simp), h.peek]
    simp only [bind, Except.bind, if_neg (sizedTag_ne_bitFalse _), if_pos (sizedTag_sized _), h₂,
      if_pos rfl, hres, List.length_replicate, min_self, h₃, pure, Except.pure,
      map_toUInt8_toNat hb, List.length_map, if_true, Reader.advance_advance, List.length_cons,
      List.length_append, List.drop_eq_nil_of_le (List.length_replicate _ _).le, List.append_nil]
    congr 3; omega

/-! ### Counts, documents and the element loop -/

/-- A nonzero count followed by at least that many bytes is read back. -/
theorem loadCount_writeCount {n arg : Nat} {r : Reader} {rest : List UInt8} (hn : n ≠ 0)
    (hl : n < 2 ^ 64) (h : r.At (writeCount n ++ rest)) (hr : n ≤ rest.length) :
    loadCount arg r = .ok (n, r.advance (writeCount n).length) := by
  rw [writeCount, if_neg hn] at h ⊢
  simp only [List.cons_append] at h
  have h₂ : (r.advance 1).readSize (valueTag n) = _ := h.advance_one.readSize hl (.inr rfl) hr
  rw [loadCount, if_neg (by rw [h.remaining]; simp), h.peek]
  simp only [bind, Except.bind, if_neg (valueTag_ne_bitFalse _), if_pos (valueTag_value _), h₂,
    Reader.advance_advance, List.length_cons]
  congr 3; omega

/-- Entering a document, reading its contents with `body` and leaving it at its terminator. -/
theorem inDocument_of {body : Reader → Except Fault (List Val × Reader)} {keep vs : List Val}
    {r : Reader} {w rest : List UInt8} (hl : r.level + 1 < 128)
    (hb : ∀ r' : Reader, r'.data = r.data → r'.level = r.level + 1 →
      r'.At (w ++ terminator :: rest) → body r' = .ok (vs, r'.advance w.length))
    (h : r.At (document :: (w ++ terminator :: rest))) :
    inDocument body keep r = .ok (vs, r.advance (w.length + 2)) := by
  have h₁ : ({ r.advance 1 with level := r.level + 1 } : Reader).At (w ++ terminator :: rest) :=
    ⟨h.advance_one.le, h.advance_one.drop⟩
  have h₂ := h₁.advance.skip_terminator
  rw [inDocument]
  simp only [if_pos hl, hb { r.advance 1 with level := r.level + 1 } rfl rfl h₁, bind, Except.bind,
    h₂, pure, Except.pure]
  simp only [Reader.advance, Nat.add_sub_cancel]
  congr 3; omega

/-- `traverse_container` reads a document whose contents `body` reads. -/
theorem loadContainer_of {body : Reader → Except Fault (List Val × Reader)} {arg : Val}
    {vs : List Val} {r : Reader} {w rest : List UInt8} (hl : r.level + 1 < 128)
    (hb : ∀ r' : Reader, r'.data = r.data → r'.level = r.level + 1 →
      r'.At (w ++ terminator :: rest) → body r' = .ok (vs, r'.advance w.length))
    (h : r.At (document :: (w ++ terminator :: rest))) :
    loadContainer body arg r = .ok (.items vs, r.advance (w.length + 2)) := by
  rw [loadContainer, if_neg (by rw [h.remaining]; simp), h.peek]
  simp only [bind, Except.bind, if_pos rfl, inDocument_of hl hb h, pure, Except.pure, if_true]

/-- The element loop of the complex containers reads each encoded element, none of which starts
with a terminator, and stops at the terminator. -/
theorem readWhile_flatMap (f : Val → Reader → Except Fault (Val × Reader)) (dflt : Val)
    (w : Val → List UInt8) (level : Nat) (rest : List UInt8) :
    ∀ (vs : List Val), (∀ v ∈ vs, ∃ b l, w v = b :: l ∧ b ≠ terminator) →
      (∀ v ∈ vs, ∀ (r : Reader) (rest' : List UInt8), r.level = level → r.At (w v ++ rest') →
        f dflt r = .ok (v, r.advance (w v).length)) →
      ∀ (fuel : Nat) (acc : List Val) (r : Reader), vs.length < fuel → r.level = level →
        r.At (vs.flatMap w ++ terminator :: rest) →
        readWhile f dflt fuel acc r = .ok (acc ++ vs, r.advance (vs.flatMap w).length)
  | [], _, _, fuel + 1, acc, r, _, _, h => by
    rw [readWhile, h.get?]
    simp
  | v :: vs, hw, hf, fuel + 1, acc, r, hfuel, hlev, h => by
    obtain ⟨b, l, hbl, hb⟩ := hw v (List.mem_cons_self _ _)
    rw [List.flatMap_cons, List.append_assoc] at h
    have hv := hf v (List.mem_cons_self _ _) r _ hlev h
    have ih := readWhile_flatMap f dflt w level rest vs
      (fun v' hv' => hw v' (List.mem_cons_of_mem _ hv'))
      (fun v' hv' => hf v' (List.mem_cons_of_mem _ hv')) fuel (acc ++ [v]) (r.advance (w v).length)
      (by simp at hfuel; omega) hlev h.advance
    rw [hbl] at h
    rw [readWhile, h.get?]
    simp only [ne_eq, hb, not_false_eq_true, if_true]
    rw [hv]
    dsimp only
    rw [ih]
    simp [Nat.add_comm]

/-! ### The round trip -/

/-- Every encoding starts with a byte other than the terminator. -/
theorem Ty.write_cons (t : Ty) (v : Val) : ∃ b l, t.write v = b :: l ∧ b ≠ terminator := by
  cases t <;> simp only [Ty.write, writeSimpleContainer, writeSized] <;> (try split_ifs) <;>
    exact ⟨_, _, rfl, by
      first | decide | exact sizedTag_ne_terminator _ | exact simpleTag_ne_terminator _⟩

/-- A list of values takes at least one byte each. -/
theorem length_le_length_flatMap {vs : List Val} {w : Val → List UInt8}
    (hw : ∀ v ∈ vs, w v ≠ []) : vs.length ≤ (vs.flatMap w).length := by
  induction vs with
  | nil => simp
  | cons v vs ih =>
    have := List.length_pos.2 (hw v (List.mem_cons_self _ _))
    simp only [List.flatMap_cons, List.length_append, List.length_cons]
    have := ih fun v' hv' => hw v' (List.mem_cons_of_mem _ hv')
    omega

mutual
/-- Reading an encoding of a value of a well-formed type, followed by any bytes, from any value
of the type, gives the value and stops right after the encoding. -/
theorem Ty.load_write : (t : Ty) → (v arg : Val) → (r : Reader) → (rest : List UInt8) →
    t.WF = true → t.Typed v = true → t.Typed arg = true → r.level + t.depth < 128 →
    r.At (t.write v ++ rest) → t.load arg r = .ok (v, r.advance (t.write v).length)
  | .simple size, v, arg, r, rest, hwf, hv, _, _, h => by
    cases v <;> simp only [Ty.Typed, Bool.false_eq_true] at hv
    exact loadSimple_write (by simpa [Ty.WF] using hwf) (by simpa using hv) h
  | .bool, v, arg, r, rest, _, hv, _, _, h => by
    cases v <;> simp only [Ty.Typed, Bool.false_eq_true] at hv
    exact loadBool_write h
  | .simpleVec elem obj, v, arg, r, rest, hwf, hv, _, _, h => by
    cases v <;> simp only [Ty.Typed, Bool.false_eq_true, Bool.and_eq_true, decide_eq_true_eq] at hv
    obtain rfl : elem = 1 := by simpa [Ty.WF] using hwf
    exact loadSimpleContainer_write hv.1 (by simpa using hv.2) rfl h
  | .simpleArray elem n, v, arg, r, rest, hwf, hv, _, _, h => by
    cases v <;> simp only [Ty.Typed, Bool.false_eq_true, Bool.and_eq_true, decide_eq_true_eq] at hv
    simp only [Ty.WF, Bool.and_eq_true, beq_iff_eq, decide_eq_true_eq] at hwf
    obtain ⟨rfl, hn⟩ := hwf
    obtain ⟨rfl, hb⟩ := hv
    exact loadSimpleContainer_write hn (by simpa using hb) rfl h
  | .vec t, v, arg, r, rest, hwf, hv, _, hl, h => by
    cases v <;> simp only [Ty.Typed, Bool.false_eq_true, Bool.and_eq_true, decide_eq_true_eq,
      List.all_eq_true] at hv
    rename_i vs
    simp only [Ty.WF] at hwf
    simp only [Ty.depth] at hl
    simp only [Ty.write, Val.elems] at h ⊢
    split_ifs at h ⊢ with hvs
    · subst hvs
      rw [Ty.load, loadContainer, if_neg (by rw [h.remaining]; simp), h.peek]
      rfl
    · have hw : ∀ v ∈ vs, t.write v ≠ [] := fun v _ => by
        obtain ⟨b, l, hbl, -⟩ := t.write_cons v; rw [hbl]; exact List.cons_ne_nil _ _
      have hlen := length_le_length_flatMap hw
      have h' : r.At (document :: ((writeCount vs.length ++ vs.flatMap t.write) ++
          terminator :: rest)) := by simpa only [List.append_assoc, List.singleton_append] using h
      rw [Ty.load]
      refine (@loadContainer_of _ arg vs r _ rest (by omega) (fun r' _ hr' h'' => ?_) h').trans ?_
      · rw [List.append_assoc] at h''
        have hc : loadCount 0 r' = _ := loadCount_writeCount (by simpa using hvs) hv.1 h''
          (by rw [List.length_append]; omega)
        have he := h''.advance
        simp only [hc, bind, Except.bind]
        rw [readWhile_flatMap t.load t.default t.write (r.level + 1) rest vs
          (fun v _ => t.write_cons v)
          (fun v hv' r₁ rest' hr₁ h₁ => Ty.load_write t v t.default r₁ rest' hwf (hv.2 v hv')
            t.typed_default (by omega) h₁) _ [] _
          (by have := he.length_le; rw [List.length_append] at this; omega)
          (by simpa using hr') he]
        simp
      · simp only [List.length_cons, List.length_append, List.length_nil]
        congr 3; omega
  | .deque t, v, arg, r, rest, hwf, hv, _, hl, h => by
    cases v <;> simp only [Ty.Typed, Bool.false_eq_true, List.all_eq_true] at hv
    rename_i vs
    simp only [Ty.WF] at hwf
    simp only [Ty.depth] at hl
    simp only [Ty.write, Val.elems] at h ⊢
    split_ifs at h ⊢ with hvs
    · subst hvs
      rw [Ty.load, loadContainer, if_neg (by rw [h.remaining]; simp), h.peek]
      rfl
    · have hw : ∀ v ∈ vs, t.write v ≠ [] := fun v _ => by
        obtain ⟨b, l, hbl, -⟩ := t.write_cons v; rw [hbl]; exact List.cons_ne_nil _ _
      have hlen := length_le_length_flatMap hw
      have h' : r.At (document :: (vs.flatMap t.write ++ terminator :: rest)) := by
        simpa only [List.append_assoc, List.singleton_append] using h
      rw [Ty.load]
      refine (@loadContainer_of _ arg vs r _ rest (by omega) (fun r' hd hr' h'' => ?_) h').trans ?_
      · rw [readWhile_flatMap t.load t.default t.write (r.level + 1) rest vs
          (fun v _ => t.write_cons v)
          (fun v hv' r₁ rest' hr₁ h₁ => Ty.load_write t v t.default r₁ rest' hwf (hv v hv')
            t.typed_default (by omega) h₁) _ [] _
          (by have := h''.length_le; rw [List.length_append, hd] at this; omega) hr' h'']
        simp
      · simp only [List.length_cons, List.length_append, List.length_nil]
  | .user fs, v, arg, r, rest, hwf, hv, harg, hl, h => by
    cases v <;> simp only [Ty.Typed, Bool.false_eq_true] at hv
    cases arg <;> simp only [Ty.Typed, Bool.false_eq_true] at harg
    rename_i vs as
    simp only [Ty.WF] at hwf
    simp only [Ty.depth] at hl
    simp only [Ty.write, Val.elems] at h ⊢
    have h' : r.At (document :: (writeFields fs vs ++ terminator :: rest)) := by
      simpa only [List.append_assoc, List.singleton_append] using h
    rw [Ty.load, if_neg (by rw [h'.remaining]; simp), h'.peek]
    simp only [bind, Except.bind, if_true, Val.elems,
      inDocument_of (by omega) (fun r' _ hr' h'' => loadFields_writeFields fs vs as r'
        (terminator :: rest) hwf hv harg (by omega) h'') h', pure, Except.pure]
    simp only [List.length_cons, List.length_append, List.length_nil]

/-- Reading the encodings of the members of a user type, followed by any bytes, from any
values of the members, gives the values and stops right after the encodings. -/
theorem loadFields_writeFields : (fs : List Field) → (vs args : List Val) → (r : Reader) →
    (rest : List UInt8) → Field.WF fs = true → Field.Typed fs vs = true →
    Field.Typed fs args = true → r.level + Field.depth fs < 128 →
    r.At (writeFields fs vs ++ rest) →
    loadFields fs args r = .ok (vs, r.advance (writeFields fs vs).length)
  | [], vs, args, r, rest, _, hv, ha, _, _ => by
    simp only [Field.Typed, List.isEmpty_iff] at hv ha
    subst hv ha
    rfl
  | .val t :: fs, vs, args, r, rest, hwf, hv, ha, hl, h => by
    cases vs <;> simp only [Field.Typed, Bool.false_eq_true, Bool.and_eq_true] at hv
    cases args <;> simp only [Field.Typed, Bool.false_eq_true, Bool.and_eq_true] at ha
    rename_i v vs a as
    simp only [Field.WF, Bool.and_eq_true] at hwf
    simp only [Field.depth] at hl
    simp only [writeFields, List.headD, List.tail] at h ⊢
    rw [List.append_assoc] at h
    have h₁ := Ty.load_write t v a r _ hwf.1 hv.1 ha.1 (by omega) h
    have h₂ := loadFields_writeFields fs vs as _ rest hwf.2 hv.2 ha.2 (by simp; omega) h.advance
    simp only [loadFields, List.headD, List.tail, h₁, bind, Except.bind, h₂, pure, Except.pure,
      Reader.advance_advance, List.length_append]
  | .null :: fs, vs, args, r, rest, hwf, hv, ha, hl, h => by
    simp only [Field.WF] at hwf
    simp only [Field.Typed] at hv ha
    simp only [Field.depth] at hl
    simp only [writeFields, List.cons_append] at h ⊢
    have h₂ := loadFields_writeFields fs vs args _ rest hwf hv ha (by simpa using hl)
      h.advance_one
    simp only [loadFields, h.skip_null, bind, Except.bind, h₂, Reader.advance_advance,
      List.length_cons, Nat.add_comm 1]
  | .name str :: fs, vs, args, r, rest, hwf, hv, ha, hl, h => by
    simp only [Field.WF] at hwf
    simp only [Field.Typed] at hv ha
    simp only [Field.depth] at hl
    simp only [writeFields] at h ⊢
    rw [List.append_assoc] at h
    have h₂ := loadFields_writeFields fs vs args _ rest hwf hv ha (by simpa using hl) h.advance
    simp only [loadFields, if_pos (show (nameBytes str).length ≤ r.remaining by
        rw [h.remaining, List.length_append]; omega), h.bytes, if_pos rfl, bind, Except.bind, pure,
      Except.pure, h₂, Reader.advance_advance, List.length_append, if_true]
end

/-- `sstl::load` reads back what `sstl::save` wrote, whatever bytes follow it: the value, with
the cursor right after its encoding. -/
theorem load_save (t : Ty) (v : Val) (rest : List UInt8) (ht : t.WF = true) (hd : t.depth < 128)
    (hv : t.Typed v = true) : load t (save t v ++ rest) = .ok (v, (save t v).length) := by
  rw [load, save, Ty.load_write t v t.default ⟨_, 0, 0⟩ rest ht hv t.typed_default
    (by simpa using hd) (Reader.at_start _ 0)]
  simp [Except.map, Reader.advance]

/-- A vector of a user type with a `std::uint16_t`, a name, a deleted member and a
`std::string`, saved and loaded back with one more byte after it. -/
theorem load_save_vector_of_records :
    (Ty.vec (.user [.val (.simple 2), .name [0x61], .null, .val (.simpleVec 1 24)])).WF = true ∧
    (Ty.vec (.user [.val (.simple 2), .name [0x61], .null, .val (.simpleVec 1 24)])).depth < 128 ∧
    (Ty.vec (.user [.val (.simple 2), .name [0x61], .null, .val (.simpleVec 1 24)])).Typed
      (.items [.fields [.num 300, .items [.num 104, .num 105]], .fields [.num 0, .items []]]) =
        true ∧
    load (.vec (.user [.val (.simple 2), .name [0x61], .null, .val (.simpleVec 1 24)]))
      (save (.vec (.user [.val (.simple 2), .name [0x61], .null, .val (.simpleVec 1 24)]))
        (.items [.fields [.num 300, .items [.num 104, .num 105]], .fields [.num 0, .items []]]) ++
        [7]) =
      .ok (.items [.fields [.num 300, .items [.num 104, .num 105]], .fields [.num 0, .items []]],
        (save (.vec (.user [.val (.simple 2), .name [0x61], .null, .val (.simpleVec 1 24)]))
          (.items [.fields [.num 300, .items [.num 104, .num 105]],
            .fields [.num 0, .items []]])).length) :=
  ⟨by decide, by decide, by decide, load_save _ _ [7] (by decide) (by decide) (by decide)⟩

end Todokanai.Sstl
