import Todokanai.Sstl.Skip

/-!
# Reading `sstl` data with another version of a type

`sstl.hpp` asks that a type's `serialize` keep its members in order across versions, that a
deleted member be replaced by `ctx.null()`, and promises two things in return: older data loads in
newer versions with default values for the missing members, and newer data loads in older versions
with the members they do not know ignored.

* `Versions ws vs rs us`: the members `ws` that saved the values `vs` and the members `rs` that
  read them back as `us`, position by position the same member or a member against the `null` that
  replaced it, with members added at the end of either side.
* `Ty.load_terminator`, `Ty.load_null`, `loadFields_terminator`: a reader at a terminator or at
  `null_value` keeps the value it has.
* `loadFields_versions`: the reader's members read `us`, and `skip(1)` then leaves the document.
* `load_save_versions`: both promises, and deletions on either side, for the members of a user
  type. Members of nested user types are compared as equal: a member's type is the same on both
  sides.

Source: `src/src/util/sstl.hpp`, the rules at the head of the file (lines 3–33),
`context::null` and `context::name` (lines 670–712), `context_data::skip` (lines 367–432),
`traverse` (lines 732–1133).
-/

namespace Todokanai.Sstl

open Byte Reader

/-! ### Readers at a terminator and at a null value -/

/-- `drop()` at the terminator of the current document stays there. -/
theorem Reader.At.drop_terminator {r : Reader} {rest : List UInt8} (h : r.At (terminator :: rest)) :
    r.drop = .ok r := by
  simp only [Reader.drop, Reader.dropLoop, h.get?, ne_eq, not_true_eq_false, if_false]

/-- At a terminator, every reader leaves its object as it was and does not move. -/
theorem Ty.load_terminator (t : Ty) (arg : Val) {r : Reader} {rest : List UInt8}
    (h : r.At (terminator :: rest)) : t.load arg r = .ok (arg, r) := by
  have hrem : r.remaining ≠ 0 := by rw [h.remaining]; simp
  have hs : ∀ size, terminator ≠ simpleTag size := fun size => (simpleTag_ne_terminator size).symm
  cases t <;> simp only [Ty.load, loadSimple, loadBool, loadSimpleContainer, loadContainer, h.get?,
    h.peek, if_neg hrem, bind, Except.bind, pure, Except.pure, h.drop_terminator, hs, if_false] <;>
    simp [Byte.terminator, Byte.bitFalse, Byte.bitTrue, Byte.nullValue, Byte.document,
      Byte.u8Sized, Byte.u32Sized, Byte.u64Sized]

theorem simpleTag_ne_nullValue (size : Nat) : simpleTag size ≠ nullValue := by
  unfold simpleTag; split_ifs <;> decide

/-- At `null_value`, every reader leaves its object as it was and steps over the byte. -/
theorem Ty.load_null (t : Ty) (arg : Val) {r : Reader} {rest : List UInt8}
    (h : r.At (nullValue :: rest)) : t.load arg r = .ok (arg, r.advance 1) := by
  have hrem : r.remaining ≠ 0 := by rw [h.remaining]; simp
  have hs : ∀ size, nullValue ≠ simpleTag size := fun size => (simpleTag_ne_nullValue size).symm
  cases t <;> simp only [Ty.load, loadSimple, loadBool, loadSimpleContainer, loadContainer, h.get?,
    h.peek, if_neg hrem, bind, Except.bind, pure, Except.pure, hs, if_false] <;>
    simp [Byte.terminator, Byte.bitFalse, Byte.bitTrue, Byte.nullValue, Byte.document,
      Byte.u8Sized, Byte.u32Sized, Byte.u64Sized]

/-- At a terminator, the members of a user type keep their default values. -/
theorem loadFields_terminator {r : Reader} {rest : List UInt8} (h : r.At (terminator :: rest)) :
    ∀ gs : List Field, loadFields gs (Field.defaults gs) r = .ok (Field.defaults gs, r)
  | [] => rfl
  | .val t :: gs => by
    simp only [Field.defaults, loadFields, List.headD, List.tail, t.load_terminator _ h, bind,
      Except.bind, loadFields_terminator h gs, pure, Except.pure]
  | .null :: gs => by
    have hs : r.skip 0 = .ok r := by
      simp only [Reader.skip, Reader.skipLoop, h.get?, and_self, if_true]
    simp only [Field.defaults, loadFields, hs, bind, Except.bind, loadFields_terminator h gs]
  | .name str :: gs => by
    simp only [Field.defaults, loadFields]
    cases hs : nameBytes str with
    | nil => simp [Reader.bytes, bind, Except.bind, pure, Except.pure, loadFields_terminator h gs]
    | cons b l =>
      -- a name starts with a byte above `null_value`, the terminator does not
      have hb : nullValue < b := by
        simpa using List.mem_takeWhile_imp (hs ▸ List.mem_cons_self b l : b ∈ nameBytes str)
      split_ifs with hle
      · have hlen := congrArg List.length h.drop
        rw [h.remaining] at hle
        simp only [List.length_drop, List.length_cons] at hle hlen
        have hbytes : r.bytes (l.length + 1) = .ok (terminator :: rest.take l.length) := by
          rw [Reader.bytes, if_pos (Or.inr (by have := h.le; omega)), h.drop]; rfl
        have hne : terminator ≠ b := fun he => absurd hb (by rw [← he]; decide)
        simp [hbytes, bind, Except.bind, hne, h.drop_terminator, loadFields_terminator h gs]
      · simp [bind, Except.bind, h.drop_terminator, loadFields_terminator h gs]

/-! ### Versions of a user type -/

/-- How the members `ws` that saved the values `vs` and the members `rs` that read them back as
`us` may differ under the rules of `sstl.hpp`: position by position the same member, or a member
on one side where the other has the `null` that replaced it, and members added at the end of
either side. -/
inductive Versions : List Field → List Val → List Field → List Val → Prop
  /-- The same member on both sides. -/
  | val {ws vs rs us} (t : Ty) (v : Val) : Versions ws vs rs us →
      Versions (.val t :: ws) (v :: vs) (.val t :: rs) (v :: us)
  | null {ws vs rs us} : Versions ws vs rs us → Versions (.null :: ws) vs (.null :: rs) us
  | name {ws vs rs us} (str : List UInt8) : Versions ws vs rs us →
      Versions (.name str :: ws) vs (.name str :: rs) us
  /-- The reader replaced the member by `ctx.null()`: the saved value is skipped. -/
  | deleted {ws vs rs us} (t : Ty) (v : Val) : Versions ws vs rs us →
      Versions (.val t :: ws) (v :: vs) (.null :: rs) us
  /-- The writer replaced the member by `ctx.null()`: the reader keeps its default. -/
  | replaced {ws vs rs us} (t : Ty) : Versions ws vs rs us →
      Versions (.null :: ws) vs (.val t :: rs) (t.default :: us)
  /-- The reader's members that the writer did not have keep their defaults. -/
  | added (gs : List Field) : Versions [] [] gs (Field.defaults gs)
  /-- The writer's members that the reader does not have are ignored. -/
  | ignored (gs : List Field) (vs : List Val) : Versions gs vs [] []

/-- A nested document whose body stops anywhere before the part that `skip(1)` passes over. -/
theorem inDocument_of_skip {body : Reader → Except Fault (List Val × Reader)} {keep vs : List Val}
    {r : Reader} {w rest : List UInt8} (hl : r.level + 1 < 128)
    (hb : ∀ r' : Reader, r'.data = r.data → r'.level = r.level + 1 →
      r'.At (w ++ terminator :: rest) →
      ∃ r'', body r' = .ok (vs, r'') ∧ r''.skip 1 = .ok (r'.advance (w.length + 1)))
    (h : r.At (document :: (w ++ terminator :: rest))) :
    inDocument body keep r = .ok (vs, r.advance (w.length + 2)) := by
  have h₁ : ({ r.advance 1 with level := r.level + 1 } : Reader).At (w ++ terminator :: rest) :=
    ⟨h.advance_one.le, h.advance_one.drop⟩
  obtain ⟨r'', hbody, hskip⟩ := hb { r.advance 1 with level := r.level + 1 } rfl rfl h₁
  simp only [inDocument, if_pos hl, hbody, hskip, bind, Except.bind, pure, Except.pure]
  simp only [Reader.advance, Nat.add_sub_cancel]
  congr 3; omega

/-- The reader's members read back `us` from the writer's encoding, and `skip(1)` then passes
over what is left of the document. -/
theorem loadFields_versions {ws rs : List Field} {vs us : List Val} (hV : Versions ws vs rs us) :
    ∀ (r : Reader) (rest : List UInt8), Field.WF ws = true → Field.Typed ws vs = true →
      r.level + Field.depth ws < 128 → r.At (writeFields ws vs ++ terminator :: rest) →
      ∃ r', loadFields rs (Field.defaults rs) r = .ok (us, r') ∧
        r'.skip 1 = .ok (r.advance ((writeFields ws vs).length + 1)) := by
  induction hV with
  | val t v _ ih =>
    intro r rest hwf hv hl h
    simp only [Field.WF, Field.Typed, Bool.and_eq_true] at hwf hv
    simp only [Field.depth] at hl
    simp only [writeFields, List.headD, List.tail, List.append_assoc] at h ⊢
    have h₁ := Ty.load_write t v t.default r _ hwf.1 hv.1 t.typed_default (by omega) h
    obtain ⟨r', h₂, h₃⟩ := ih _ rest hwf.2 hv.2 (by simp; omega) h.advance
    refine ⟨r', ?_, ?_⟩
    · simp only [Field.defaults, loadFields, List.headD, List.tail, h₁, bind, Except.bind, h₂,
        pure, Except.pure]
    · rw [h₃, advance_advance, List.length_append, Nat.add_assoc]
  | null _ ih =>
    intro r rest hwf hv hl h
    simp only [Field.WF, Field.Typed, Field.depth, writeFields, List.cons_append] at hwf hv hl h ⊢
    obtain ⟨r', h₂, h₃⟩ := ih _ rest hwf hv (by simpa using hl) h.advance_one
    refine ⟨r', ?_, ?_⟩
    · simp only [Field.defaults, loadFields, h.skip_null, bind, Except.bind, h₂]
    · rw [h₃, advance_advance, List.length_cons, Nat.add_comm 1]
  | name str _ ih =>
    intro r rest hwf hv hl h
    simp only [Field.WF, Field.Typed, Field.depth, writeFields, List.append_assoc] at hwf hv hl h ⊢
    obtain ⟨r', h₂, h₃⟩ := ih _ rest hwf hv (by simpa using hl) h.advance
    refine ⟨r', ?_, ?_⟩
    · simp only [Field.defaults, loadFields, if_pos (show (nameBytes str).length ≤ r.remaining by
        rw [h.remaining, List.length_append]; omega), h.bytes, if_pos rfl, bind, Except.bind,
        pure, Except.pure, h₂, if_true]
    · rw [h₃, advance_advance, List.length_append, Nat.add_assoc]
  | deleted t v _ ih =>
    intro r rest hwf hv hl h
    simp only [Field.WF, Field.Typed, Bool.and_eq_true] at hwf hv
    simp only [Field.depth] at hl
    simp only [writeFields, List.headD, List.tail, List.append_assoc] at h ⊢
    obtain ⟨r', h₂, h₃⟩ := ih _ rest hwf.2 hv.2 (by simp; omega) h.advance
    refine ⟨r', ?_, ?_⟩
    · simp only [Field.defaults, loadFields, (Ty.skippable_write t v hwf.1 hv.1).skip h, bind,
        Except.bind, h₂]
    · rw [h₃, advance_advance, List.length_append, Nat.add_assoc]
  | replaced t _ ih =>
    intro r rest hwf hv hl h
    simp only [Field.WF, Field.Typed, Field.depth, writeFields, List.cons_append] at hwf hv hl h ⊢
    obtain ⟨r', h₂, h₃⟩ := ih _ rest hwf hv (by simpa using hl) h.advance_one
    refine ⟨r', ?_, ?_⟩
    · simp only [Field.defaults, loadFields, List.headD, List.tail, t.load_null _ h, bind,
        Except.bind, h₂, pure, Except.pure]
    · rw [h₃, advance_advance, List.length_cons, Nat.add_comm 1]
  | added gs =>
    intro r rest _ _ _ h
    exact ⟨r, loadFields_terminator h gs, h.skip_terminator⟩
  | ignored gs vs =>
    intro r rest hwf hv _ h
    exact ⟨r, rfl, (Field.skipsOver_writeFields gs vs hwf hv 1 one_ne_zero).skip_one h⟩

/-- Data saved under one version of a user type loads under another: the members both have read
back what was saved, members only the reader has keep their defaults, and the cursor stops right
after the saved data. -/
theorem load_save_versions {ws rs : List Field} {vs us : List Val} (hV : Versions ws vs rs us)
    (rest : List UInt8) (hwf : Field.WF ws = true) (hd : Field.depth ws + 1 < 128)
    (hv : Field.Typed ws vs = true) :
    load (.user rs) (save (.user ws) (.fields vs) ++ rest) =
      .ok (.fields us, (save (.user ws) (.fields vs)).length) := by
  have h : (⟨save (.user ws) (.fields vs) ++ rest, 0, 0⟩ : Reader).At
      (document :: (writeFields ws vs ++ terminator :: rest)) := by
    simpa [save, Ty.write, Val.elems] using Reader.at_start (save (.user ws) (.fields vs) ++ rest) 0
  rw [load, Ty.default, Ty.load, if_neg (by rw [h.remaining]; simp), h.peek]
  simp only [bind, Except.bind, if_true, Val.elems,
    inDocument_of_skip (by dsimp only; omega) (fun r' _ hr' h'' => loadFields_versions hV r' rest
      hwf hv (by rw [hr']; dsimp only; omega) h'') h, pure, Except.pure, Except.map]
  simp [save, Ty.write, Val.elems, Reader.advance]

/-- A record of a `std::uint32_t`, a `bool` and a `std::string`, saved by a version that has
since deleted the `bool` and added a `std::array<std::uint32_t, 2>`: the new version reads the
number and the string, and the array keeps its default. -/
theorem load_save_versions_record :
    Field.WF [.val (.simple 4), .val .bool, .val (.simpleVec 1 24)] = true ∧
    Field.depth [.val (.simple 4), .val .bool, .val (.simpleVec 1 24)] + 1 < 128 ∧
    Field.Typed [.val (.simple 4), .val .bool, .val (.simpleVec 1 24)]
      [.num 7, .bit true, .items [.num 104]] = true ∧
    load (.user [.val (.simple 4), .null, .val (.simpleVec 1 24), .val (.simpleArray 4 2)])
      (save (.user [.val (.simple 4), .val .bool, .val (.simpleVec 1 24)])
        (.fields [.num 7, .bit true, .items [.num 104]]) ++ [5]) =
      .ok (.fields [.num 7, .items [.num 104], .items [.num 0, .num 0]],
        (save (.user [.val (.simple 4), .val .bool, .val (.simpleVec 1 24)])
          (.fields [.num 7, .bit true, .items [.num 104]])).length) :=
  ⟨by decide, by decide, by decide, load_save_versions
    (.val _ _ (.deleted _ _ (.val _ _ (.added [.val (.simpleArray 4 2)])))) [5]
    (by decide) (by decide) (by decide)⟩

end Todokanai.Sstl
