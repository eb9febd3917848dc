import Todokanai.Sstl.Reader

/-!
# Types, values and the two directions of `sstl`

`sstl::save` and `sstl::load` run one template, `traverse<T>::op`, in writing or in reading mode.
The C++ types it accepts are modelled by `Ty`, one constructor per specialisation, and their values
by `Val`. `Ty.write` is the writing mode and `Ty.load` the reading mode, on the `Reader` of
`Todokanai.Sstl.Reader`; both recurse on the type, as the templates do.

The writer of simple containers (`std::vector`, `std::basic_string`, `std::array` of a simple type)
stores, for elements wider than a byte, the size `arg.size() * sizeof(T)`, where `T` is the
container; the reader takes the size for a number of elements and sets the cursor to
`begin + sizeof(value_type) * size`. The two disagree for every such container:

* `load_save_wide_array_loses_elements`: an array of two `std::uint32_t` comes back zero-filled;
* `load_extended_schema_loses_member`: the member after such an array is lost;
* `load_reads_past_end`: the cursor passes the end of the input, and the next reader dereferences a
  byte beyond it.

The maps and sets, `std::bitset`, the smart pointers and the floating-point types are left out; a
set is read and written as the vector of its elements. The size of a container object
(`sizeof(std::vector<T>)`) is a parameter of `Ty.simpleVec`, since it depends on the standard
library.

Source: `src/src/util/sstl.hpp`, `context` (lines 642–730), `traverse` (lines 732–1340),
`context_data::traverse_container*` (lines 511–640), `load`, `append` and `save` (lines 1342–1392).
-/

namespace Todokanai.Sstl

open Byte

/-! ### Types and values -/

mutual
/-- The C++ types `sstl` traverses, by the specialisation of `traverse` it selects. -/
inductive Ty
  /-- An integral or enum type, or a `serialize_copy` type whose `operator==` compares its bytes,
  of `size` bytes: `traverse<simple>`. The value is the number its bytes spell, so the test
  `arg == T{}` is the test that the number is `0`. Floating-point types are left out: `-0.0 == 0.0`
  holds with bits that are not zero, so `save` writes `-0.0` as the default and `load` gives `+0.0`
  back. -/
  | simple (size : Nat)
  /-- `bool`. -/
  | bool
  /-- `std::vector` or `std::basic_string` of a simple type of `elem` bytes, whose object takes
  `obj` bytes: `traverse_container_simple`. -/
  | simpleVec (elem obj : Nat)
  /-- `std::array` of `n` values of a simple type of `elem` bytes, which takes `elem · n` bytes:
  `traverse_container_simple`. -/
  | simpleArray (elem n : Nat)
  /-- `std::vector` or `std::basic_string` of a complex type, or a set: a document with the count
  and every element. -/
  | vec (t : Ty)
  /-- `std::deque`: a document with every element. -/
  | deque (t : Ty)
  /-- A user type, whose `serialize` visits `fields` in order: `traverse<T>`. -/
  | user (fields : List Field)

/-- What the `serialize` of a user type visits. -/
inductive Field
  /-- `ctx(m)` for a member of type `t`. -/
  | val (t : Ty)
  /-- `ctx.null()`, the place of a deleted member. -/
  | null
  /-- `ctx.name(str)`, a metadata string. -/
  | name (str : List UInt8)
end

/-- A value: a number (the unsigned value of an integer, or the bytes of a copy type read
big-endian), a `bool`, the elements of a container, or the members of a user type. -/
inductive Val
  | num (n : Nat)
  | bit (b : Bool)
  | items (vs : List Val)
  | fields (vs : List Val)

namespace Val

mutual
/-- Structural equality of values. -/
def beq : Val → Val → Bool
  | .num n, .num m => n == m
  | .bit a, .bit b => a == b
  | .items as, .items bs => beqList as bs
  | .fields as, .fields bs => beqList as bs
  | _, _ => false

/-- Structural equality of lists of values. -/
def beqList : List Val → List Val → Bool
  | [], [] => true
  | a :: as, b :: bs => beq a b && beqList as bs
  | _, _ => false
end

mutual
theorem beq_iff (a b : Val) : beq a b = true ↔ a = b := by
  cases a <;> cases b <;> simp [beq, beqList_iff]

theorem beqList_iff (as bs : List Val) : beqList as bs = true ↔ as = bs := by
  cases as <;> cases bs <;> simp [beqList, beq_iff, beqList_iff]
end

instance : DecidableEq Val := fun a b => decidable_of_iff _ (beq_iff a b)

/-- The number of a value, `0` for any other. -/
def toNum : Val → Nat
  | .num n => n
  | _ => 0

/-- The elements or members of a value, none for any other. -/
def elems : Val → List Val
  | .items vs => vs
  | .fields vs => vs
  | _ => []

end Val

mutual
/-- The value of a default-constructed object of type `t`. -/
def Ty.default : Ty → Val
  | .simple _ => .num 0
  | .bool => .bit false
  | .simpleVec _ _ => .items []
  | .simpleArray _ n => .items (List.replicate n (.num 0))
  | .vec _ => .items []
  | .deque _ => .items []
  | .user fs => .fields (Field.defaults fs)

/-- The default values of the members among `fs`. -/
def Field.defaults : List Field → List Val
  | [] => []
  | .val t :: fs => t.default :: Field.defaults fs
  | .null :: fs => Field.defaults fs
  | .name _ :: fs => Field.defaults fs
end

/-- `ctx.name(str)` uses the bytes of `str` up to the first one not above `null_value`. -/
def nameBytes (str : List UInt8) : List UInt8 :=
  str.takeWhile fun b => nullValue < b

/-! ### Writing -/

/-- `size_type::type_sized()`. -/
def sizedTag (n : Nat) : UInt8 :=
  if n < 256 then u8Sized else if n ≤ 0xFFFFFFFF then u32Sized else u64Sized

/-- `size_type::type_value()`. -/
def valueTag (n : Nat) : UInt8 :=
  if n < 256 then u8Value else if n ≤ 0xFFFFFFFF then u32Value else u64Value

/-- `operator+=(size_type)`: a size in one, four or eight bytes. -/
def sizeBytes (n : Nat) : List UInt8 :=
  if n < 256 then [n.toUInt8] else if n ≤ 0xFFFFFFFF then beBytes 4 n else beBytes 8 n

/-- `write_sized(data, size)`: `bit_false` for nothing, else the sized tag, the size and the
bytes. -/
def writeSized (data : List UInt8) (n : Nat) : List UInt8 :=
  if n = 0 then [bitFalse] else sizedTag n :: sizeBytes n ++ data

/-- `traverse<size_type>` writing a count. -/
def writeCount (n : Nat) : List UInt8 :=
  if n = 0 then [bitFalse] else valueTag n :: sizeBytes n

/-- `my_type` of `traverse<simple>` for a type of `size` bytes. -/
def simpleTag (size : Nat) : UInt8 :=
  if size = 1 then u8Value else if size = 4 then u32Value else if size = 8 then u64Value
  else if size < 256 then u8Sized else u32Sized

/-- Whether `my_type` is a sized tag, so that the number goes through `write_sized`. -/
def simpleSized (size : Nat) : Bool :=
  simpleTag size = u8Sized ∨ simpleTag size = u32Sized

/-- `traverse_container_simple` writing the numbers `ns` of `elem` bytes each, of a container whose
object takes `obj` bytes: a byte array goes through `write_sized`; otherwise the size written is the
length times `sizeof(T)`, the size of the container object, and the elements follow big-endian. -/
def writeSimpleContainer (elem obj : Nat) (ns : List Nat) : List UInt8 :=
  if ns = [] then [bitFalse]
  else if elem = 1 then writeSized (ns.map Nat.toUInt8) ns.length
  else sizedTag (ns.length * obj) :: sizeBytes (ns.length * obj) ++ ns.flatMap (beBytes elem)

mutual
/-- `traverse<T>::op` in writing mode: the bytes that encode `v` as a `t`. -/
def Ty.write : Ty → Val → List UInt8
  | .simple size, v =>
    if v.toNum = 0 then [bitFalse]
    else if simpleSized size then writeSized (beBytes size v.toNum) size
    else simpleTag size :: beBytes size v.toNum
  | .bool, v => [if v = .bit true then bitTrue else bitFalse]
  | .simpleVec elem obj, v => writeSimpleContainer elem obj (v.elems.map Val.toNum)
  | .simpleArray elem n, v => writeSimpleContainer elem (elem * n) (v.elems.map Val.toNum)
  | .vec t, v =>
    if v.elems = [] then [bitFalse]
    else document :: writeCount v.elems.length ++ v.elems.flatMap t.write ++ [terminator]
  | .deque t, v =>
    if v.elems = [] then [bitFalse] else document :: v.elems.flatMap t.write ++ [terminator]
  | .user fs, v => document :: writeFields fs v.elems ++ [terminator]

/-- `serialize` in writing mode over the members `vs`. -/
def writeFields : List Field → List Val → List UInt8
  | [], _ => []
  | .val t :: fs, vs => t.write (vs.headD (.num 0)) ++ writeFields fs vs.tail
  | .null :: fs, vs => nullValue :: writeFields fs vs
  | .name str :: fs, vs => nameBytes str ++ writeFields fs vs
end

/-- `sstl::save` of `v` as a `t`. -/
def save (t : Ty) (v : Val) : List UInt8 :=
  t.write v

/-! ### Reading -/

/-- `traverse<simple>` reading a type of `size` bytes into `arg`. -/
def loadSimple (size : Nat) (arg : Val) (r : Reader) : Except Fault (Val × Reader) :=
  match r.data.get? r.pos with
  | none => .ok (arg, r)
  | some b =>
    if b = bitFalse then .ok (.num 0, r.advance 1)
    else if b = simpleTag size then
      if simpleSized size then do
        let (n, r) ← (r.advance 1).readSize (simpleTag size)
        if n = size then
          let (bs, r) ← r.read size
          return (.num (beNat bs), r)
        else return (arg, ← (r.advance size).drop)
      else do
        let (bs, r) ← (r.advance 1).read size
        return (.num (beNat bs), r)
    else if b = nullValue then .ok (arg, r.advance 1)
    else do return (arg, ← r.drop)

/-- `traverse<bool>` reading into `arg`. -/
def loadBool (arg : Val) (r : Reader) : Except Fault (Val × Reader) :=
  if r.remaining = 0 then .ok (arg, r) else do
  let b ← r.peek
  if b = bitFalse ∨ b = bitTrue then return (.bit (b = bitTrue), r.advance 1)
  else if b = nullValue then return (arg, r.advance 1)
  else return (arg, ← r.drop)

/-- `traverse<size_type>` reading a count into `arg`. -/
def loadCount (arg : Nat) (r : Reader) : Except Fault (Nat × Reader) :=
  if r.remaining = 0 then .ok (arg, r) else do
  let b ← r.peek
  if b = bitFalse then return (0, r.advance 1)
  else if b = u8Value ∨ b = u32Value ∨ b = u64Value then (r.advance 1).readSize b
  else if b = nullValue then return (arg, r.advance 1)
  else return (arg, ← r.drop)

/-- The element loop of `traverse_container_simple`: for each element, read `elem` bytes into it
while `begin < last`. -/
def readElems (elem last : Nat) : List Val → Reader → Except Fault (List Val × Reader)
  | [], r => .ok ([], r)
  | v :: vs, r => do
    let (v, r) ← if r.pos < last then (r.read elem).map fun x => (Val.num (beNat x.1), x.2)
      else pure (v, r)
    let (vs, r) ← readElems elem last vs r
    return (v :: vs, r)

/-- `traverse_container_simple` reading into `arg`, for elements of `elem` bytes; `resize n` is
`is_simple<T>::resize(arg, n)`. A sized tag gives a size that the reader takes as the number of
elements: a byte array copies that many bytes; otherwise the elements are read while the cursor is
below `begin + elem · size`, and the cursor is then set there. -/
def loadSimpleContainer (elem : Nat) (resize : Nat → List Val) (arg : Val) (r : Reader) :
    Except Fault (Val × Reader) :=
  if r.remaining = 0 then .ok (arg, r) else do
  let b ← r.peek
  if b = bitFalse then return (.items (resize 0), r.advance 1)
  else if b = u8Sized ∨ b = u32Sized ∨ b = u64Sized then
    let (size, r) ← (r.advance 1).readSize b
    let vs := resize size
    if elem = 1 then
      let bs ← r.bytes (min vs.length size)
      return (.items (bs.map (fun b => Val.num b.toNat) ++ vs.drop bs.length), r.advance size)
    else
      let last := r.pos + elem * size
      let (vs, r) ← readElems elem last vs r
      return (.items vs, { r with pos := last })
  else if b = nullValue then return (arg, r.advance 1)
  else return (arg, ← r.drop)

/-- The loop `while (ctx)` of the complex containers: while `begin < end` and the byte is not a
terminator, read one more element, from its default value `dflt`. -/
def readWhile (f : Val → Reader → Except Fault (Val × Reader)) (dflt : Val) :
    Nat → List Val → Reader → Except Fault (List Val × Reader)
  | 0, _, _ => .error .noFuel
  | fuel + 1, acc, r =>
    match r.data.get? r.pos with
    | some b =>
      if b ≠ terminator then
        match f dflt r with
        | .ok (v, r) => readWhile f dflt fuel (acc ++ [v]) r
        | .error e => .error e
      else .ok (acc, r)
    | none => .ok (acc, r)

/-- A nested document as `traverse_container` and `traverse<T>` read it: enter, run `body` below
level 128, leave with `skip(1)`. -/
def inDocument (body : Reader → Except Fault (List Val × Reader)) (keep : List Val) (r : Reader) :
    Except Fault (List Val × Reader) := do
  let r := { r.advance 1 with level := r.level + 1 }
  let (vs, r) ← if r.level < 128 then body r else pure (keep, r)
  let r ← r.skip 1
  return (vs, { r with level := r.level - 1 })

/-- `traverse_container` reading into `arg`, with `body` reading the document's contents. -/
def loadContainer (body : Reader → Except Fault (List Val × Reader)) (arg : Val) (r : Reader) :
    Except Fault (Val × Reader) :=
  if r.remaining = 0 then .ok (arg, r) else do
  let b ← r.peek
  if b = document then
    let (vs, r) ← inDocument body [] r
    return (.items vs, r)
  else if b = bitFalse then return (.items [], r.advance 1)
  else if b = nullValue then return (arg, r.advance 1)
  else return (arg, ← r.drop)

mutual
/-- `traverse<T>::op` in reading mode: read a `t` into `arg`, the object's current value. -/
def Ty.load : Ty → Val → Reader → Except Fault (Val × Reader)
  | .simple size, arg, r => loadSimple size arg r
  | .bool, arg, r => loadBool arg r
  | .simpleVec elem _, arg, r => loadSimpleContainer elem (fun n => List.replicate n (.num 0)) arg r
  | .simpleArray elem n, arg, r =>
    loadSimpleContainer elem (fun _ => List.replicate n (.num 0)) arg r
  | .vec t, arg, r =>
    loadContainer (fun r => do
      let (_, r) ← loadCount 0 r
      readWhile t.load t.default (r.data.length + 1) [] r) arg r
  | .deque t, arg, r => loadContainer (readWhile t.load t.default (r.data.length + 1) []) arg r
  | .user fs, arg, r =>
    if r.remaining = 0 then .ok (arg, r) else do
    let b ← r.peek
    if b = document then
      let (vs, r) ← inDocument (loadFields fs arg.elems) arg.elems r
      return (.fields vs, r)
    else if b = nullValue then return (arg, r.advance 1)
    else return (arg, ← r.drop)

/-- `serialize` in reading mode over the members `vs`. -/
def loadFields : List Field → List Val → Reader → Except Fault (List Val × Reader)
  | [], vs, r => .ok (vs, r)
  | .val t :: fs, vs, r => do
    let (v, r) ← t.load (vs.headD (.num 0)) r
    let (vs, r) ← loadFields fs vs.tail r
    return (v :: vs, r)
  | .null :: fs, vs, r => do loadFields fs vs (← r.skip 0)
  | .name str :: fs, vs, r => do
    let s := nameBytes str
    let r ← if s.length ≤ r.remaining then do
        if (← r.bytes s.length) = s then pure (r.advance s.length) else r.drop
      else r.drop
    loadFields fs vs r
end

/-- `sstl::load` of a `t` from `data` into a default-constructed object: the value and the number
of bytes the cursor moved, `ctx.begin - data`. -/
def load (t : Ty) (data : List UInt8) : Except Fault (Val × Nat) :=
  (t.load t.default ⟨data, 0, 0⟩).map fun x => (x.1, x.2.pos)

/-! ### Simple containers of wide elements -/

/-- `std::array<std::uint32_t, 2>` holding `{1, 2}` is written with the size
`2 · sizeof(std::array<std::uint32_t, 2>) = 16` but eight bytes of elements. Reading it back, fewer
than 16 bytes remain after the size, so `read_size` aborts with size `0`: the array comes back
zero-filled. -/
theorem load_save_wide_array_loses_elements :
    save (.simpleArray 4 2) (.items [.num 1, .num 2]) = [5, 16, 0, 0, 0, 1, 0, 0, 0, 2] ∧
      load (.simpleArray 4 2) (save (.simpleArray 4 2) (.items [.num 1, .num 2])) =
        .ok (.items [.num 0, .num 0], 10) := by
  decide

/-- A user type with a `std::array<std::uint32_t, 1>` and a `std::uint8_t` equal to `7`, read as the
same type extended by one more `std::uint8_t`. The array's reader takes the size `4` for a count and
sets the cursor to `begin + 4 · 4`, past the end of the input, so the `7` is never read: the member
keeps its default `0`. -/
theorem load_extended_schema_loses_member :
    save (.user [.val (.simpleArray 4 1), .val (.simple 1)]) (.fields [.items [.num 1], .num 7]) =
        [1, 5, 4, 0, 0, 0, 1, 4, 7, 0] ∧
      load (.user [.val (.simpleArray 4 1), .val (.simple 1), .val (.simple 1)])
          (save (.user [.val (.simpleArray 4 1), .val (.simple 1)])
            (.fields [.items [.num 1], .num 7])) =
        .ok (.fields [.items [.num 1], .num 0, .num 0], 19) := by
  decide

/-- The reader of a simple container of wide elements leaves the cursor past the end of its input:
at `18` for the six bytes of an array of one `std::uint32_t`. The next member's reader then finds
`remaining()` wrapped to a huge number and reads the byte at index `19` of a nine-byte input. -/
theorem load_reads_past_end :
    load (.simpleArray 4 1) [5, 4, 0, 0, 0, 1] = .ok (.items [.num 1], 18) ∧
      load (.user [.val (.simpleArray 4 1), .val .bool]) [1, 5, 4, 0, 0, 0, 1, 3, 0] =
        .error (.outOfBounds 19) := by
  decide

end Todokanai.Sstl
