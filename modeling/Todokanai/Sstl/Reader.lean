import Mathlib

/-!
# The reading context of `sstl`

`sstl` encodes values as a sequence of tagged items: a tag byte, then a fixed-size big-endian
number, or a size and that many bytes, or a nested document closed by a terminator byte. A reading
`context_data` keeps a pointer `begin` into the input and the recursion level `psize`.

The pointer is the index `pos` here. The code can move it past the end of the input (`begin =
last` in the reader of simple containers), and `remaining()`, computed as `end - begin` in
`size_t`, then wraps to a huge number. Every access to a byte is checked in the model: one at or
past the end, undefined behaviour in the source, is the fault `outOfBounds`.

* `Reader`: `context_data` in reading mode; `Fault`: why a read stops short.
* `Reader.read`, `Reader.readSize`: `context_data::read` and `read_size`.
* `Reader.skip`, `Reader.drop`: skip one value or a number of document levels, and skip the rest of
  the current document. Their loops run on a budget of `|input| + 1` iterations, each of which
  consumes a byte.

The bytes of an `out` that `read` leaves unwritten at the end of the input are indeterminate in the
source; the model takes them to be zero.

Source: `src/src/util/sstl.hpp`, `byte` and `size_type` (lines 138–181), `context_data` (lines
265–440).
-/

namespace Todokanai.Sstl

/-! ### Tags -/

namespace Byte

/-- `byte::terminator`, the end of a document. -/
def terminator : UInt8 := 0x00
/-- `byte::document`, the start of a nested document. -/
def document : UInt8 := 0x01
/-- `byte::bit_false`: `false`, a zero number or an empty container. -/
def bitFalse : UInt8 := 0x02
/-- `byte::bit_true`. -/
def bitTrue : UInt8 := 0x03
/-- `byte::u8_value`, `u8_sized`, `u32_value`, `u32_sized`, `u64_value`, `u64_sized`. -/
def u8Value : UInt8 := 0x04
def u8Sized : UInt8 := 0x05
def u32Value : UInt8 := 0x06
def u32Sized : UInt8 := 0x07
def u64Value : UInt8 := 0x08
def u64Sized : UInt8 := 0x09
/-- `byte::null_value`, a value to skip; bytes above it start metadata. -/
def nullValue : UInt8 := 0x1F

end Byte

open Byte

/-! ### Numbers -/

/-- `std::be_t<T, 1>` of `size` bytes: the bytes of `n`, most significant first. -/
def beBytes (size n : Nat) : List UInt8 :=
  (List.range size).reverse.map fun i => (n / 256 ^ i).toUInt8

/-- The number whose big-endian bytes are `bs`. -/
def beNat (bs : List UInt8) : Nat :=
  bs.foldl (fun n b => n * 256 + b.toNat) 0

@[simp] theorem toNat_toUInt8 (n : Nat) : n.toUInt8.toNat = n % 256 := rfl

@[simp] theorem length_beBytes (size n : Nat) : (beBytes size n).length = size := by
  simp [beBytes]

theorem beBytes_succ (size n : Nat) :
    beBytes (size + 1) n = (n / 256 ^ size).toUInt8 :: beBytes size n := by
  simp [beBytes, List.range_succ]

theorem foldl_beNat (a : Nat) (bs : List UInt8) :
    bs.foldl (fun n b => n * 256 + b.toNat) a = a * 256 ^ bs.length + beNat bs := by
  induction bs generalizing a with
  | nil => simp [beNat]
  | cons b bs ih =>
    simp only [beNat, List.foldl_cons, Nat.zero_mul, Nat.zero_add, List.length_cons] at ih ⊢
    rw [ih, ih b.toNat, pow_succ]
    ring

theorem beNat_cons (b : UInt8) (bs : List UInt8) :
    beNat (b :: bs) = b.toNat * 256 ^ bs.length + beNat bs := by
  rw [beNat, List.foldl_cons, foldl_beNat]; simp

theorem beNat_lt (bs : List UInt8) : beNat bs < 256 ^ bs.length := by
  induction bs with
  | nil => simp [beNat]
  | cons b bs ih =>
    rw [beNat_cons, List.length_cons, pow_succ]
    have := b.toNat_lt
    calc b.toNat * 256 ^ bs.length + beNat bs < (b.toNat + 1) * 256 ^ bs.length := by
          rw [Nat.succ_mul]; omega
      _ ≤ 256 ^ bs.length * 256 := by rw [Nat.mul_comm]; exact Nat.mul_le_mul_left _ this

/-- Reading back `size` big-endian bytes gives the number modulo `256^size`. -/
theorem beNat_beBytes (size n : Nat) : beNat (beBytes size n) = n % 256 ^ size := by
  induction size with
  | zero => simp [beBytes, beNat, Nat.mod_one]
  | succ size ih =>
    rw [beBytes_succ, beNat_cons, length_beBytes, ih, pow_succ, Nat.mod_mul]
    simp only [toNat_toUInt8]
    ring

theorem beNat_inj {bs bs' : List UInt8} (hl : bs.length = bs'.length) (h : beNat bs = beNat bs') :
    bs = bs' := by
  induction bs generalizing bs' with
  | nil => exact (List.length_eq_zero.mp hl.symm).symm
  | cons b bs ih =>
    obtain _ | ⟨b', bs'⟩ := bs'
    · cases hl
    have hl' : bs.length = bs'.length := Nat.succ.inj hl
    rw [beNat_cons, beNat_cons, ← hl'] at h
    have hlt := beNat_lt bs
    have hlt' := beNat_lt bs'
    rw [← hl'] at hlt'
    have hpos : 0 < 256 ^ bs.length := by positivity
    have hb : b.toNat = b'.toNat := by
      have := congrArg (· / 256 ^ bs.length) h
      simp only [Nat.add_comm (_ * _), Nat.add_mul_div_right _ _ hpos,
        Nat.div_eq_of_lt hlt, Nat.div_eq_of_lt hlt', Nat.zero_add] at this
      exact this
    rw [UInt8.toNat.inj hb, ih hl' (by rw [hb] at h; omega)]

/-- Writing back the big-endian bytes of the number read gives the bytes. -/
theorem beBytes_beNat {bs : List UInt8} {size : Nat} (h : bs.length = size) :
    beBytes size (beNat bs) = bs :=
  beNat_inj (by rw [length_beBytes, h]) (by rw [beNat_beBytes, ← h, Nat.mod_eq_of_lt (beNat_lt bs)])

/-! ### The context -/

/-- Equality of read results is decidable, so that runs of the reader on concrete bytes can be
checked by evaluation. -/
instance decEqExcept {ε α : Type} [DecidableEq ε] [DecidableEq α] : DecidableEq (Except ε α)
  | .error a, .error b =>
    if h : a = b then isTrue (h ▸ rfl) else isFalse fun e => h (by injection e)
  | .ok a, .ok b =>
    if h : a = b then isTrue (h ▸ rfl) else isFalse fun e => h (by injection e)
  | .error _, .ok _ => isFalse nofun
  | .ok _, .error _ => isFalse nofun

/-- Why a read stops short: an access to byte `i` at or past the end of the input, or the model's
loop budget running out. -/
inductive Fault
  | outOfBounds (i : Nat)
  | noFuel
  deriving DecidableEq

/-- `context_data` in reading mode over `data`: `begin` as the index `pos`, and the recursion level
`psize`. -/
structure Reader where
  data : List UInt8
  pos : Nat
  level : Nat
  deriving DecidableEq

namespace Reader

/-- `remaining()`, `end - begin` as a `size_t`: past the end it wraps. -/
def remaining (r : Reader) : Nat :=
  if r.pos ≤ r.data.length then r.data.length - r.pos else 2 ^ 64 - (r.pos - r.data.length)

/-- `begin < end`. -/
def inBounds (r : Reader) : Bool :=
  r.pos < r.data.length

/-- `*begin`. -/
def peek (r : Reader) : Except Fault UInt8 :=
  match r.data.get? r.pos with
  | some b => .ok b
  | none => .error (.outOfBounds r.pos)

/-- `begin += n`. -/
def advance (r : Reader) (n : Nat) : Reader :=
  { r with pos := r.pos + n }

/-- `begin = end`. -/
def toEnd (r : Reader) : Reader :=
  { r with pos := r.data.length }

/-- The `n` bytes from `begin`, as `memcpy` or `memcmp` reads them; none are read when `n = 0`. -/
def bytes (r : Reader) (n : Nat) : Except Fault (List UInt8) :=
  if n = 0 ∨ r.pos + n ≤ r.data.length then .ok ((r.data.drop r.pos).take n)
  else .error (.outOfBounds r.pos)

/-- `context_data::read(out, size)`: copy `n` bytes and advance when `remaining()` allows it,
else go to the end and leave `out` unwritten. -/
def read (r : Reader) (n : Nat) : Except Fault (List UInt8 × Reader) :=
  if n ≤ r.remaining then (r.bytes n).map fun bs => (bs, r.advance n)
  else .ok (List.replicate n 0, r.toEnd)

/-- One branch of `read_size`: read a size of `width` bytes and accept it when that many bytes
remain after it, else abort to the end with size `0`. -/
def readSizeOf (r : Reader) (width : Nat) : Except Fault (Nat × Reader) :=
  (r.read width).map fun (bs, r) => if beNat bs ≤ r.remaining then (beNat bs, r) else (0, r.toEnd)

/-- `context_data::read_size(type)`: the size after a tag, checked against the bytes left. -/
def readSize (r : Reader) (tag : UInt8) : Except Fault (Nat × Reader) :=
  if tag = u8Value ∨ tag = u8Sized then r.readSizeOf 1
  else if tag = u32Value ∨ tag = u32Sized then r.readSizeOf 4
  else if tag = u64Value ∨ tag = u64Sized then r.readSizeOf 8
  else .ok (0, r.toEnd)

/-- What one byte does in the loop of `skip`. -/
inductive SkipStep
  /-- Leave the `switch` at this level and context. -/
  | next (level : Nat) (r : Reader)
  /-- A reserved byte: go to the end and return. -/
  | abort (r : Reader)
  /-- A metadata byte: `continue` with the next one. -/
  | meta

/-- The body of the loop of `skip` after `_b = *begin++`, at level `level`. -/
def skipByte (r : Reader) (level : Nat) (b : UInt8) : Except Fault SkipStep :=
  if b = terminator then .ok (.next (level - 1) r)
  else if b = document then .ok (.next (level + 1) r)
  else if b = nullValue ∨ b = bitFalse ∨ b = bitTrue then .ok (.next level r)
  else if b = u8Value then (r.read 1).map fun x => .next level x.2
  else if b = u32Value then (r.read 4).map fun x => .next level x.2
  else if b = u64Value then (r.read 8).map fun x => .next level x.2
  else if b = u8Sized ∨ b = u32Sized ∨ b = u64Sized then
    (r.readSize b).map fun x => .next level (x.2.advance x.1)
  else if b < nullValue then .ok (.abort r.toEnd)
  else .ok .meta

/-- The loop of `skip(level)`: while `begin < end` and either a level is open or the byte is not a
terminator, consume a byte; return once the level is back to `0`. -/
def skipLoop : Nat → Nat → Reader → Except Fault Reader
  | 0, _, _ => .error .noFuel
  | fuel + 1, level, r =>
    match r.data.get? r.pos with
    | none => .ok r
    | some b =>
      if level = 0 ∧ b = terminator then .ok r
      else
        match skipByte (r.advance 1) level b with
        | .error e => .error e
        | .ok .meta => skipLoop fuel level (r.advance 1)
        | .ok (.abort r') => .ok r'
        | .ok (.next level r') => if level = 0 then .ok r' else skipLoop fuel level r'

/-- `context_data::skip(level)`: skip `level` documents, or one value when `level` is `0`. -/
def skip (r : Reader) (level : Nat) : Except Fault Reader :=
  skipLoop (r.data.length + 1) level r

/-- The loop of `drop`: `skip(0)` while `begin < end` and the byte is not a terminator. -/
def dropLoop : Nat → Reader → Except Fault Reader
  | 0, _ => .error .noFuel
  | fuel + 1, r =>
    match r.data.get? r.pos with
    | some b => if b ≠ terminator then (r.skip 0).bind (dropLoop fuel) else .ok r
    | none => .ok r

/-- `context_data::drop()`: skip the rest of the current document. -/
def drop (r : Reader) : Except Fault Reader :=
  dropLoop (r.data.length + 1) r

end Reader

end Todokanai.Sstl
