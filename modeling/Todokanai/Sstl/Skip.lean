import Todokanai.Sstl.RoundTrip

/-!
# `skip` steps over every encoding

`context_data::skip(level)` is how a reader passes over what it does not read: `ctx.null()` calls
`skip(0)` for a deleted member, and every document is left with `skip(1)`, which passes over the
members the reader did not ask for. The loop looks at one byte a round: a tag says how many bytes
follow, `document` and `terminator` move the level, bytes above `null_value` are metadata.

* `Reader.SkipsOver level w`: at a level other than `0`, the loop passes over the bytes `w` and goes
  on after them; `Reader.Skippable w`: `w` is one item, or one document, to `skip(0)`.
* `Ty.skippable_write`, `Field.skipsOver_writeFields`: what `traverse` writes for a well-formed
  value is one value to `skip`, and the members of a user type are passed over at any level.
* `Ty.skip_write`: `skip(0)` steps over the encoding of any well-formed value, whatever follows.
* `Reader.SkipsOver.skip_one`: `skip(1)` passes over members and leaves the document.

Source: `src/src/util/sstl.hpp`, `context_data::skip` (lines 367–432), `traverse` and
`size_type` writing (lines 269–640).
-/

namespace Todokanai.Sstl

open Byte

/-! ### The loop of `skip` -/

namespace Reader

/-- More loop budget does not change what `skip` returns. -/
theorem skipLoop_mono : ∀ (f m L : Nat) (r x : Reader), skipLoop f L r = .ok x →
    skipLoop (f + m) L r = .ok x
  | 0, _, _, _, _, h => by cases h
  | f + 1, m, L, r, x, h => by
    rw [show f + 1 + m = (f + m) + 1 by omega]
    simp only [skipLoop] at h ⊢
    match hg : r.data.get? r.pos with
    | none => simpa only [hg] using h
    | some b =>
      simp only [hg] at h ⊢
      split_ifs at h ⊢
      · exact h
      · match hs : skipByte (r.advance 1) L b with
        | .error _ => simp only [hs] at h; cases h
        | .ok .meta => simp only [hs] at h ⊢; exact skipLoop_mono f m _ _ _ h
        | .ok (.abort _) => simpa only [hs] using h
        | .ok (.next L' _) =>
          simp only [hs] at h ⊢
          split_ifs at h ⊢
          exacts [h, skipLoop_mono f m _ _ _ h]

/-- One round of the loop that does not leave it. -/
theorem skipLoop_next {f level level' : Nat} {r r' : Reader} {b : UInt8} {rest : List UInt8}
    (hr : r.At (b :: rest)) (hb : ¬(level = 0 ∧ b = terminator)) (hl : level' ≠ 0)
    (hs : skipByte (r.advance 1) level b = .ok (.next level' r')) :
    skipLoop (f + 1) level r = skipLoop f level' r' := by
  simp only [skipLoop, hr.get?, if_neg hb, hs, if_neg hl]

/-- The round that brings the level back to `0` returns. -/
theorem skipLoop_last {f level : Nat} {r r' : Reader} {b : UInt8} {rest : List UInt8}
    (hr : r.At (b :: rest)) (hb : ¬(level = 0 ∧ b = terminator))
    (hs : skipByte (r.advance 1) level b = .ok (.next 0 r')) :
    skipLoop (f + 1) level r = .ok r' := by
  simp only [skipLoop, hr.get?, if_neg hb, hs, if_true]

theorem skipByte_flag (r : Reader) (level : Nat) {b : UInt8}
    (hb : b = nullValue ∨ b = bitFalse ∨ b = bitTrue) :
    skipByte r level b = .ok (.next level r) := by
  rcases hb with rfl | rfl | rfl <;> rfl

/-- A value tag and the bytes of its width. -/
theorem skipByte_value {r : Reader} {level : Nat} {b : UInt8} {w rest : List UInt8}
    (hb : b = u8Value ∧ w.length = 1 ∨ b = u32Value ∧ w.length = 4 ∨ b = u64Value ∧ w.length = 8)
    (h : r.At (w ++ rest)) : skipByte r level b = .ok (.next level (r.advance w.length)) := by
  have hr := h.read
  rcases hb with ⟨rfl, hw⟩ | ⟨rfl, hw⟩ | ⟨rfl, hw⟩ <;> rw [hw] at hr ⊢ <;>
    simp only [skipByte, hr] <;> rfl

/-- A sized tag, the size and that many bytes. -/
theorem skipByte_sized {r : Reader} {level n : Nat} {data rest : List UInt8} (hn : n < 2 ^ 64)
    (hd : data.length = n) (h : r.At (sizeBytes n ++ (data ++ rest))) :
    skipByte r level (sizedTag n) = .ok (.next level (r.advance ((sizeBytes n).length + n))) := by
  have hs := h.readSize hn (.inl rfl) (by simp [hd])
  rcases sizedTag_sized n with ht | ht | ht <;> rw [ht] at hs ⊢ <;>
    simp only [skipByte, hs, Except.map, advance_advance] <;> rfl

theorem skipByte_terminator (r : Reader) (level : Nat) :
    skipByte r (level + 1) terminator = .ok (.next level r) := rfl

theorem skipByte_document (r : Reader) (level : Nat) :
    skipByte r level document = .ok (.next (level + 1) r) := rfl

/-- A byte above `null_value` is metadata. -/
theorem skipByte_meta (r : Reader) (level : Nat) {b : UInt8} (hb : nullValue < b) :
    skipByte r level b = .ok .meta := by
  have hne : ∀ c : UInt8, c ≤ nullValue → b ≠ c := fun c hc he => UInt8.not_lt.mpr hc (he ▸ hb)
  simp only [skipByte, hne terminator (by decide), hne document (by decide),
    hne nullValue (by decide), hne bitFalse (by decide), hne bitTrue (by decide),
    hne u8Value (by decide), hne u32Value (by decide), hne u64Value (by decide),
    hne u8Sized (by decide), hne u32Sized (by decide), hne u64Sized (by decide),
    UInt8.lt_asymm hb, or_self, if_false]

/-- The loop of `skip` at `level` steps over the bytes `w`: whatever it does after them, it does
from their start in `w.length` more rounds. -/
def SkipsOver (level : Nat) (w : List UInt8) : Prop :=
  ∀ (f : Nat) (r x : Reader) (rest : List UInt8), r.At (w ++ rest) →
    skipLoop f level (r.advance w.length) = .ok x → skipLoop (f + w.length) level r = .ok x

theorem skipsOver_nil (level : Nat) : SkipsOver level [] := fun _ _ _ _ _ hx => hx

theorem SkipsOver.append {level : Nat} {w w' : List UInt8} (h : SkipsOver level w)
    (h' : SkipsOver level w') : SkipsOver level (w ++ w') := by
  intro f r x rest hr hx
  rw [List.append_assoc] at hr
  rw [List.length_append, ← advance_advance] at hx
  have := h _ r x _ hr (h' f _ x rest hr.advance hx)
  rwa [List.length_append, Nat.add_comm w.length, ← Nat.add_assoc]

theorem SkipsOver.flatMap {level : Nat} {w : Val → List UInt8} :
    ∀ {vs : List Val}, (∀ v ∈ vs, SkipsOver level (w v)) → SkipsOver level (vs.flatMap w)
  | [], _ => skipsOver_nil level
  | v :: vs, h => by
    rw [List.flatMap_cons]
    exact (h v (List.mem_cons_self v vs)).append
      (SkipsOver.flatMap fun u hu => h u (List.mem_cons_of_mem v hu))

/-- Metadata bytes, such as a name, take one round each. -/
theorem skipsOver_meta {level : Nat} : ∀ {bs : List UInt8}, (∀ b ∈ bs, nullValue < b) →
    SkipsOver level bs
  | [], _ => skipsOver_nil level
  | b :: bs, h => by
    have hb := h b (List.mem_cons_self b bs)
    refine SkipsOver.append (w := [b]) (fun f r x rest hr hx => ?_)
      (skipsOver_meta fun c hc => h c (List.mem_cons_of_mem b hc))
    have hne : ¬(level = 0 ∧ b = terminator) := fun he =>
      UInt8.not_lt.mpr (by decide : terminator ≤ nullValue) (he.2 ▸ hb)
    simp only [skipLoop, hr.get?, if_neg hne, skipByte_meta _ level hb]
    exact hx

/-- An item at a level other than `0`: its tag says how many bytes follow, and the loop goes on
after them. -/
theorem skipsOver_item {level : Nat} {b : UInt8} {w : List UInt8} (hl : level ≠ 0)
    (hs : ∀ (r : Reader) (rest : List UInt8), r.At (w ++ rest) →
      skipByte r level b = .ok (.next level (r.advance w.length))) :
    SkipsOver level (b :: w) := by
  intro f r x rest hr hx
  rw [List.length_cons, ← Nat.add_assoc,
    skipLoop_next hr (fun h => hl h.1) hl (hs _ rest hr.advance_one)]
  rw [List.length_cons, Nat.add_comm, ← advance_advance] at hx
  exact skipLoop_mono f w.length level _ x hx

/-- A nested document at a level other than `0`: the loop goes one level down, steps over the
contents, and comes back up at the terminator. -/
theorem skipsOver_document {level : Nat} {c : List UInt8} (hl : level ≠ 0)
    (hc : SkipsOver (level + 1) c) : SkipsOver level (document :: c ++ [terminator]) := by
  intro f r x rest hr hx
  have h₁ : (r.advance 1).At (c ++ terminator :: rest) := by simpa using hr.advance_one
  have h₂ := h₁.advance
  have ht : skipLoop (f + 1) (level + 1) ((r.advance 1).advance c.length) = .ok x := by
    rw [skipLoop_next h₂ (by omega) hl (skipByte_terminator _ level)]
    simpa [Nat.add_comm, Nat.add_left_comm] using hx
  have := hc (f + 1) _ x _ h₁ ht
  rw [show f + (document :: c ++ [terminator]).length = f + 1 + c.length + 1 by simp; omega,
    skipLoop_next hr (fun h => hl h.1) (by omega) (skipByte_document _ level)]
  exact this

/-- The bytes of one value as `skip(0)` sees them: one item, whose tag says how many bytes follow,
or a document, whose contents the loop steps over one level down. -/
inductive Skippable : List UInt8 → Prop
  | item {b : UInt8} {w : List UInt8} : b ≠ terminator →
      (∀ (level : Nat) (r : Reader) (rest : List UInt8), r.At (w ++ rest) →
        skipByte r level b = .ok (.next level (r.advance w.length))) → Skippable (b :: w)
  | document {c : List UInt8} : (∀ level, level ≠ 0 → SkipsOver level c) →
      Skippable (document :: c ++ [terminator])

theorem Skippable.skipsOver {level : Nat} {w : List UInt8} (hl : level ≠ 0) :
    Skippable w → SkipsOver level w
  | .item _ hs => skipsOver_item hl (hs level)
  | .document hc => skipsOver_document hl (hc _ (by omega))

/-- `skip(0)` steps over one value. -/
theorem Skippable.skip {w rest : List UInt8} {r : Reader} (hr : r.At (w ++ rest)) :
    Skippable w → r.skip 0 = .ok (r.advance w.length)
  | .item hb hs => by
    rw [Reader.skip, skipLoop_last hr (fun h => hb h.2) (hs 0 _ rest hr.advance_one),
      advance_advance, List.length_cons, Nat.add_comm]
  | @Skippable.document c hc => by
    have h₁ : (r.advance 1).At (c ++ terminator :: rest) := by simpa using hr.advance_one
    have hlen := hr.length_le
    simp only [List.length_append, List.length_cons] at hlen
    obtain ⟨g, hg⟩ : ∃ g, r.data.length = g + 1 + c.length :=
      ⟨r.data.length - 1 - c.length, by omega⟩
    have ht : skipLoop (g + 1) 1 ((r.advance 1).advance c.length) =
        .ok (r.advance (Byte.document :: c ++ [terminator]).length) := by
      rw [skipLoop_last h₁.advance (by omega) (skipByte_terminator _ 0)]
      simp [Nat.add_comm]
    rw [Reader.skip, hg, skipLoop_next hr (by decide) one_ne_zero (skipByte_document _ 0)]
    exact hc 1 one_ne_zero _ _ _ _ h₁ ht
/-- `skip(1)` passes over what the loop steps over at level `1` and leaves the document at its
terminator. -/
theorem SkipsOver.skip_one {w rest : List UInt8} {r : Reader} (hw : SkipsOver 1 w)
    (hr : r.At (w ++ terminator :: rest)) : r.skip 1 = .ok (r.advance (w.length + 1)) := by
  have hlen := hr.length_le
  simp only [List.length_append, List.length_cons] at hlen
  obtain ⟨g, hg⟩ : ∃ g, r.data.length + 1 = g + 1 + w.length := ⟨r.data.length - w.length, by omega⟩
  rw [Reader.skip, hg]
  refine hw _ r _ _ hr ?_
  rw [skipLoop_last hr.advance (by omega) (skipByte_terminator _ 0), advance_advance]

end Reader

open Reader

/-! ### Every encoding is one value to `skip` -/

/-- `bit_false`, `bit_true` and `null_value` are items with nothing after the tag. -/
theorem skippable_flag {b : UInt8} (hb : b = nullValue ∨ b = bitFalse ∨ b = bitTrue) :
    Skippable [b] :=
  .item (by rcases hb with rfl | rfl | rfl <;> decide) fun level r _ _ => skipByte_flag r level hb

/-- `write_sized`: `bit_false` for nothing, else a sized tag, the size and the bytes. -/
theorem skippable_writeSized {data : List UInt8} (hn : data.length < 2 ^ 64) :
    Skippable (writeSized data data.length) := by
  rw [writeSized]
  split_ifs
  · exact skippable_flag (.inr (.inl rfl))
  · rw [List.cons_append]
    refine .item (sizedTag_ne_terminator _) fun level r rest h => ?_
    rw [List.append_assoc] at h
    rw [skipByte_sized hn rfl h, List.length_append]

theorem valueTag_width (n : Nat) :
    valueTag n = u8Value ∧ (sizeBytes n).length = 1 ∨
      valueTag n = u32Value ∧ (sizeBytes n).length = 4 ∨
      valueTag n = u64Value ∧ (sizeBytes n).length = 8 := by
  unfold valueTag sizeBytes; split_ifs <;> simp

theorem skippable_writeCount (n : Nat) : Skippable (writeCount n) := by
  rw [writeCount]
  split_ifs
  · exact skippable_flag (.inr (.inl rfl))
  · exact .item (by rcases valueTag_value n with h | h | h <;> rw [h] <;> decide)
      fun level r _ h => skipByte_value (valueTag_width n) h

/-- A simple type without a sized tag has the value tag of its width. -/
theorem simpleTag_value {size : Nat} (hz : simpleSized size = false) :
    simpleTag size = u8Value ∧ size = 1 ∨ simpleTag size = u32Value ∧ size = 4 ∨
      simpleTag size = u64Value ∧ size = 8 := by
  unfold simpleSized at hz; unfold simpleTag at hz ⊢; split_ifs at hz ⊢ <;> simp_all

theorem skippable_writeSimpleContainer {obj : Nat} {ns : List Nat} (hn : ns.length < 2 ^ 64) :
    Skippable (writeSimpleContainer 1 obj ns) := by
  rw [writeSimpleContainer, if_pos (rfl : 1 = 1)]
  split_ifs
  · exact skippable_flag (.inr (.inl rfl))
  · have := @skippable_writeSized (ns.map Nat.toUInt8) (by simpa using hn)
    rwa [List.length_map] at this

mutual
/-- The encoding of every well-formed value is one value to `skip`. -/
theorem Ty.skippable_write : (t : Ty) → (v : Val) → t.WF = true → t.Typed v = true →
    Skippable (t.write v)
  | .simple size, v, hwf, hv => by
    cases v <;> simp only [Ty.Typed, Bool.false_eq_true, decide_eq_true_eq] at hv
    rename_i n
    simp only [Ty.WF, decide_eq_true_eq] at hwf
    simp only [Ty.write, Val.toNum]
    split_ifs with h0 hz
    · exact skippable_flag (.inr (.inl rfl))
    · have := @skippable_writeSized (beBytes size n) (by rw [length_beBytes]; omega)
      rwa [length_beBytes] at this
    · exact .item (simpleTag_ne_terminator size) fun level r _ h =>
        skipByte_value (by simpa only [length_beBytes] using simpleTag_value (by simpa using hz)) h
  | .bool, v, _, _ => by
    simp only [Ty.write]
    split_ifs <;> exact skippable_flag (by simp)
  | .simpleVec elem obj, v, hwf, hv => by
    cases v <;> simp only [Ty.Typed, Bool.false_eq_true, Bool.and_eq_true, decide_eq_true_eq] at hv
    obtain rfl : elem = 1 := by simpa [Ty.WF] using hwf
    exact skippable_writeSimpleContainer (by simpa [Val.elems] using hv.1)
  | .simpleArray elem n, v, hwf, hv => by
    cases v <;> simp only [Ty.Typed, Bool.false_eq_true, Bool.and_eq_true, decide_eq_true_eq] at hv
    simp only [Ty.WF, Bool.and_eq_true, beq_iff_eq, decide_eq_true_eq] at hwf
    obtain ⟨rfl, hn⟩ := hwf
    exact skippable_writeSimpleContainer (by simpa [Val.elems, hv.1] using hn)
  | .vec t, v, hwf, hv => by
    cases v <;> simp only [Ty.Typed, Bool.false_eq_true, Bool.and_eq_true, decide_eq_true_eq,
      List.all_eq_true] at hv
    simp only [Ty.WF] at hwf
    simp only [Ty.write, Val.elems]
    split_ifs
    · exact skippable_flag (.inr (.inl rfl))
    · exact .document fun level hl => ((skippable_writeCount _).skipsOver hl).append
        (SkipsOver.flatMap fun x hx => (Ty.skippable_write t x hwf (hv.2 x hx)).skipsOver hl)
  | .deque t, v, hwf, hv => by
    cases v <;> simp only [Ty.Typed, Bool.false_eq_true, List.all_eq_true] at hv
    simp only [Ty.WF] at hwf
    simp only [Ty.write, Val.elems]
    split_ifs
    · exact skippable_flag (.inr (.inl rfl))
    · exact .document fun level hl =>
        SkipsOver.flatMap fun x hx => (Ty.skippable_write t x hwf (hv x hx)).skipsOver hl
  | .user fs, v, hwf, hv => by
    cases v <;> simp only [Ty.Typed, Bool.false_eq_true] at hv
    exact .document fun level hl => Field.skipsOver_writeFields fs _ hwf hv level hl

/-- At a level other than `0`, the loop of `skip` steps over the members of a user type. -/
theorem Field.skipsOver_writeFields : (fs : List Field) → (vs : List Val) → Field.WF fs = true →
    Field.Typed fs vs = true → ∀ level, level ≠ 0 → SkipsOver level (writeFields fs vs)
  | [], _, _, _, level, _ => skipsOver_nil level
  | .val t :: fs, vs, hwf, hv, level, hl => by
    cases vs <;> simp only [Field.Typed, Bool.false_eq_true, Bool.and_eq_true] at hv
    simp only [Field.WF, Bool.and_eq_true] at hwf
    exact ((Ty.skippable_write t _ hwf.1 hv.1).skipsOver hl).append
      (Field.skipsOver_writeFields fs _ hwf.2 hv.2 level hl)
  | .null :: fs, vs, hwf, hv, level, hl =>
    ((skippable_flag (.inl rfl)).skipsOver hl).append
      (Field.skipsOver_writeFields fs vs hwf hv level hl)
  | .name str :: fs, vs, hwf, hv, level, hl =>
    (skipsOver_meta fun _ hb => by simpa using List.mem_takeWhile_imp hb).append
      (Field.skipsOver_writeFields fs vs hwf hv level hl)
end

/-- `skip(0)`, as `ctx.null()` calls it, steps over the encoding of any well-formed value. -/
theorem Ty.skip_write {t : Ty} {v : Val} {r : Reader} {rest : List UInt8} (hwf : t.WF = true)
    (hv : t.Typed v = true) (h : r.At (t.write v ++ rest)) :
    r.skip 0 = .ok (r.advance (t.write v).length) :=
  (Ty.skippable_write t v hwf hv).skip h

/-- `skip(0)` over a record of a `std::uint16_t`, a name, a `null` and a `std::vector` of `bool`,
followed by another byte, stops right before that byte. -/
theorem skip_write_record :
    (Ty.user [.val (.simple 2), .name [0x61], .null, .val (.vec .bool)]).WF = true ∧
    (Ty.user [.val (.simple 2), .name [0x61], .null, .val (.vec .bool)]).Typed
      (.fields [.num 300, .items [.bit true, .bit false]]) = true ∧
    (⟨(Ty.user [.val (.simple 2), .name [0x61], .null, .val (.vec .bool)]).write
        (.fields [.num 300, .items [.bit true, .bit false]]) ++ [9], 0, 0⟩ : Reader).skip 0 =
      .ok ⟨(Ty.user [.val (.simple 2), .name [0x61], .null, .val (.vec .bool)]).write
        (.fields [.num 300, .items [.bit true, .bit false]]) ++ [9], 14, 0⟩ :=
  ⟨by decide, by decide, Ty.skip_write (by decide) (by decide) (Reader.at_start _ 0)⟩

end Todokanai.Sstl
