import Mathlib

/-!
# Generating a password: `master_key::generate`

`master_key::generate(prefix, dict_id, len)` draws `len` words from the dictionary `dict_id`
and hands the prefix followed by the words to `init`. It allocates `prefix.size() + len * 17`
zeroed bytes (a word has at most 16 bytes, plus one for the delimiter, plus the terminating NUL
as the comment says), copies the prefix, then for each `i < len` writes the delimiter (when the
dictionary has one and `i > 0`) and a word picked by `RAND_bytes`, stores the NUL, and passes
`std::strlen(ptr)` bytes to `init`.

For `1 ≤ len` the words take at most `16 * len` bytes, the NUL lands inside the block and `init`
receives the prefix and the drawn words (`generate_eq`). For `len = 0` the block has exactly
`prefix.size()` bytes and the NUL store writes one byte past it
(`generate_writes_past_block_at_zero_length`): the comment counts a NUL per word, but there is
one NUL in all.

* `wordBytes`, `DictInfo`, `dictLatin`, `dictNumbers`, `dictCyrillic`, `dicts`, `dictCount`:
  `dict_word`, `dict_info`, `s_dict_latin`, `s_dict_numbers`, `s_dict_cyrillic`, `s_dicts` and
  `master_key::dict_count()`.
* `zalloc`, `storeAt`, `copyAt`, `strlen`: `OPENSSL_zalloc`, a byte store `*p = c`,
  `std::memcpy` and `std::strlen` on the block. A store outside the block is an error `Fault`.
* `wordStep`, `wordLoop`, `generate`: one iteration of the word loop, the loop, and
  `master_key::generate`, with `rand i` the `i`-th value `RAND_bytes` writes. The result is the
  byte string passed to `init`.

The length is an `int`; `len * 17` past `INT_MAX` is an overflow, a `Fault`, and negative
lengths are not modelled. The sum `prefix.size() + len * 17` is taken in `Nat`, as a `size_t`
never wraps for a prefix that fits in memory. The allocation is taken to succeed.

Source: `src/src/to_key.hpp`, `dict_word` and `dict_info` (lines 111–139), the dictionaries
(lines 143–171), `master_key::dict_count()` (lines 173–176), `master_key::generate`
(lines 307–337).
-/

namespace Todokanai.Keys

/-! ### Dictionaries -/

/-- The bytes of a `dict_word` literal: its UTF-8 encoding, without the terminating NUL. -/
def wordBytes (w : String) : List UInt8 :=
  w.toUTF8.data.toList

/-- `dict_info`: a word list and the delimiter written between two words. The constructor takes
the list as a C array, so it has a word. The name is not read by `generate` and is left out. -/
structure DictInfo where
  dict : List String
  delim : UInt8
  dict_ne_nil : dict ≠ []

/-- `s_dict_latin`: digits and latin letters without `l`, `B`, `D`, `I`, `O`. -/
def dictLatin : List String :=
  ["0", "1", "2", "3", "4", "5", "6", "7", "8", "9", "a", "b", "c", "d", "e", "f", "g",
   "h", "i", "j", "k", "m", "n", "o", "p", "q", "r", "s", "t", "u", "v", "w", "x", "y",
   "z", "A", "C", "E", "F", "G", "H", "J", "K", "L", "M", "N", "P", "Q", "R", "S", "T",
   "U", "V", "W", "X", "Y", "Z"]

/-- `s_dict_numbers`: the digits. -/
def dictNumbers : List String :=
  ["0", "1", "2", "3", "4", "5", "6", "7", "8", "9"]

/-- `s_dict_cyrillic`: digits and cyrillic letters without `б`, `ё`, `л`, `ъ`, `ь`, `В`, `Ё`,
`З`, `Л`, `О`, `Ъ`, `Ь`. -/
def dictCyrillic : List String :=
  ["0", "1", "2", "3", "4", "5", "6", "7", "8", "9", "а", "в", "г", "д", "е", "ж", "з",
   "и", "й", "к", "м", "н", "о", "п", "р", "с", "т", "у", "ф", "х", "ц", "ч", "ш", "щ",
   "ы", "э", "ю", "я", "А", "Б", "Г", "Д", "Е", "Ж", "И", "Й", "К", "М", "Н", "П", "Р",
   "С", "Т", "У", "Ф", "Х", "Ц", "Ч", "Ш", "Щ", "Ы", "Э", "Ю", "Я"]

/-- `s_dicts`: Latin, PIN and Cyrillic, none with a delimiter. -/
def dicts : List DictInfo :=
  [⟨dictLatin, 0, List.cons_ne_nil _ _⟩, ⟨dictNumbers, 0, List.cons_ne_nil _ _⟩,
   ⟨dictCyrillic, 0, List.cons_ne_nil _ _⟩]

/-- `master_key::dict_count()`. -/
def dictCount : Nat :=
  dicts.length

/-- Every word of every dictionary passes the `static_assert` of `dict_word` (at most 16 bytes)
and has no NUL byte, so that `std::strlen` reads past it. -/
theorem dicts_words :
    ∀ d ∈ dicts, ∀ w ∈ d.dict, (wordBytes w).length ≤ 16 ∧ 0 ∉ wordBytes w := by
  decide

theorem dicts_delim : ∀ d ∈ dicts, d.delim = 0 := by
  decide

/-- The word a draw `r` picks: `dict[r % dict_length]`. -/
def DictInfo.drawn (d : DictInfo) (r : UInt32) : String :=
  d.dict.getD (r.toNat % d.dict.length) ""

theorem DictInfo.drawn_mem (d : DictInfo) (r : UInt32) : d.drawn r ∈ d.dict := by
  have hpos : 0 < d.dict.length := List.length_pos.mpr d.dict_ne_nil
  rw [drawn, List.getD_eq_getElem _ _ (Nat.mod_lt _ hpos)]
  exact List.getElem_mem _

/-- The bytes iteration `i` of the loop writes: the delimiter, when the dictionary has one and
`i > 0`, then the drawn word. -/
def DictInfo.stepBytes (d : DictInfo) (rand : Nat → UInt32) (i : Nat) : List UInt8 :=
  (if d.delim ≠ 0 ∧ 0 < i then [d.delim] else []) ++ wordBytes (d.drawn (rand i))

theorem DictInfo.stepBytes_of_delim (d : DictInfo) (h : d.delim = 0) (rand : Nat → UInt32)
    (i : Nat) : d.stepBytes rand i = wordBytes (d.drawn (rand i)) := by
  simp [stepBytes, h]

/-! ### The heap block -/

/-- Why a run of `generate` has no defined result. -/
inductive Fault where
  /-- A byte stored at `index` of a block of `size` bytes, `size ≤ index`. -/
  | outOfBounds (index size : Nat)
  /-- `len * 17` overflows `int`. -/
  | intOverflow
  /-- `s_dicts[dict_id]` read past the table. -/
  | noDict
  deriving DecidableEq, Repr

/-- `OPENSSL_zalloc(size)`: `size` zero bytes. -/
def zalloc (size : Nat) : List UInt8 :=
  List.replicate size 0

/-- `*p = b` with `p` at offset `pos` of the block. -/
def storeAt (buf : List UInt8) (pos : Nat) (b : UInt8) : Except Fault (List UInt8) :=
  if pos < buf.length then .ok (buf.set pos b) else .error (.outOfBounds pos buf.length)

/-- `std::memcpy(p, src, src.size())` with `p` at offset `pos`, one byte after the other. -/
def copyAt (buf : List UInt8) (pos : Nat) : List UInt8 → Except Fault (List UInt8)
  | [] => .ok buf
  | b :: bs => do copyAt (← storeAt buf pos b) (pos + 1) bs

@[simp] theorem ok_bind {α β : Type} (a : α) (f : α → Except Fault β) :
    (Except.ok a >>= f) = f a := rfl

@[simp] theorem error_bind {α β : Type} (e : Fault) (f : α → Except Fault β) :
    (Except.error e >>= f) = .error e := rfl

@[simp] theorem map_ok {α β : Type} (a : α) (f : α → β) :
    (f <$> Except.ok a : Except Fault β) = .ok (f a) := rfl

theorem bind_eq_ok {α β : Type} {x : Except Fault α} {f : α → Except Fault β} {b : β}
    (h : x >>= f = .ok b) : ∃ a, x = .ok a ∧ f a = .ok b := by
  cases x with
  | error e => cases h
  | ok a => exact ⟨a, rfl, h⟩

/-- `std::strlen(p)`: the number of bytes before the first NUL. -/
def strlen (buf : List UInt8) : Nat :=
  (buf.takeWhile (· != 0)).length

theorem storeAt_over (pre post : List UInt8) (y b : UInt8) :
    storeAt (pre ++ y :: post) pre.length b = .ok (pre ++ b :: post) := by
  rw [storeAt, if_pos (by simp), List.set_append_right _ _ le_rfl, Nat.sub_self]
  rfl

theorem storeAt_past (buf : List UInt8) (b : UInt8) :
    storeAt buf buf.length b = .error (.outOfBounds buf.length buf.length) :=
  if_neg (lt_irrefl _)

/-- `memcpy` over the bytes `old` of a block puts `src` in their place. -/
theorem copyAt_over (pre old post src : List UInt8) (h : old.length = src.length) :
    copyAt (pre ++ old ++ post) pre.length src = .ok (pre ++ src ++ post) := by
  induction src generalizing pre old with
  | nil => rw [List.length_eq_zero.mp h]; rfl
  | cons b src ih =>
    obtain ⟨y, old, rfl⟩ : ∃ y old', old = y :: old' :=
      List.exists_cons_of_length_eq_add_one h
    have hpre := ih (pre ++ [b]) old (by simpa using h)
    simp only [List.append_assoc, List.singleton_append, List.length_append,
      List.length_singleton] at hpre
    simp only [copyAt, List.append_assoc, List.cons_append, storeAt_over]
    exact hpre

/-- Copying `a ++ b` is copying `a`, then `b` right after it. -/
theorem copyAt_append (buf : List UInt8) (pos : Nat) (a b : List UInt8) :
    copyAt buf pos (a ++ b) = copyAt buf pos a >>= fun buf => copyAt buf (pos + a.length) b := by
  induction a generalizing buf pos with
  | nil => rfl
  | cons x a ih =>
    simp only [List.cons_append, copyAt, List.length_cons]
    cases storeAt buf pos x with
    | error e => rfl
    | ok buf' => exact (ih buf' (pos + 1)).trans (by rw [Nat.add_right_comm]; rfl)

/-! ### The word loop -/

/-- One iteration `i` of the word loop with `s_dicts[dict_id] = d`: the delimiter when there is
one and `i > 0`, then `memcpy` of the drawn word; the block and the new write offset `pass`. -/
def wordStep (d : DictInfo) (rand : Nat → UInt32) (i : Nat) (buf : List UInt8) (pass : Nat) :
    Except Fault (List UInt8 × Nat) := do
  let (buf, pass) ← if d.delim ≠ 0 ∧ 0 < i then
      (fun buf => (buf, pass + 1)) <$> storeAt buf pass d.delim
    else pure (buf, pass)
  let word := wordBytes (d.drawn (rand i))
  return (← copyAt buf pass word, pass + word.length)

/-- `for (int i = 0; i < len; i++)` from iteration `i` with `k` iterations left; each one reads
`s_dicts[dict_id]`. -/
def wordLoop (dictId : Nat) (rand : Nat → UInt32) (i : Nat) :
    Nat → List UInt8 → Nat → Except Fault (List UInt8 × Nat)
  | 0, buf, pass => .ok (buf, pass)
  | k + 1, buf, pass => do
    let some d := dicts.get? dictId | throw .noDict
    let (buf, pass) ← wordStep d rand i buf pass
    wordLoop dictId rand (i + 1) k buf pass

/-- An iteration copies its bytes at `pass` and moves `pass` past them. -/
theorem wordStep_eq (d : DictInfo) (rand : Nat → UInt32) (i : Nat) (buf : List UInt8)
    (pass : Nat) : wordStep d rand i buf pass =
      (fun buf => (buf, pass + (d.stepBytes rand i).length)) <$>
        copyAt buf pass (d.stepBytes rand i) := by
  by_cases hd : d.delim ≠ 0 ∧ 0 < i
  · simp only [wordStep, DictInfo.stepBytes, if_pos hd, List.singleton_append, copyAt]
    cases storeAt buf pass d.delim with
    | error e => rfl
    | ok buf' =>
      cases copyAt buf' (pass + 1) (wordBytes (d.drawn (rand i))) <;>
        simp only [bind, Except.bind, Functor.map, Except.map, pure, Except.pure,
          List.length_cons, Nat.add_assoc, Nat.add_comm 1]
  · simp only [wordStep, DictInfo.stepBytes, if_neg hd, List.nil_append]
    rfl

/-- The loop from iteration `i` copies the bytes of iterations `i`, …, `i + k - 1` one after the
other at `pass`. -/
theorem wordLoop_eq {dictId : Nat} {d : DictInfo} (hd : dicts.get? dictId = some d)
    (rand : Nat → UInt32) (k : Nat) : ∀ (i : Nat) (buf : List UInt8) (pass : Nat),
      wordLoop dictId rand i k buf pass =
        (fun buf => (buf, pass + ((List.range' i k).flatMap (d.stepBytes rand)).length)) <$>
          copyAt buf pass ((List.range' i k).flatMap (d.stepBytes rand)) := by
  induction k with
  | zero => intro i buf pass; rfl
  | succ k ih =>
    intro i buf pass
    simp only [wordLoop, hd, wordStep_eq, List.range'_succ, List.flatMap_cons, copyAt_append]
    cases copyAt buf pass (d.stepBytes rand i) with
    | error e => rfl
    | ok buf' =>
      simp only [Functor.map, Except.map, bind, Except.bind, ih, List.length_append,
        Nat.add_assoc]

/-! ### `master_key::generate` -/

/-- `master_key::generate(prefix, dict_id, len)`: the bytes it passes to `init`. -/
def generate (pfx : List UInt8) (dictId len : Nat) (rand : Nat → UInt32) :
    Except Fault (List UInt8) := do
  if 2147483647 < len * 17 then throw .intOverflow
  let buf ← copyAt (zalloc (pfx.length + len * 17)) 0 pfx
  let (buf, pass) ← wordLoop dictId rand 0 len buf pfx.length
  let buf ← storeAt buf pass 0
  return buf.take (strlen buf)

/-- With no word to draw, the block holds the prefix and nothing more, and the terminating NUL
is stored one byte past its end, whatever the prefix, the dictionary and the draws. -/
theorem generate_writes_past_block_at_zero_length (pfx : List UInt8) (dictId : Nat)
    (rand : Nat → UInt32) :
    generate pfx dictId 0 rand = .error (.outOfBounds pfx.length pfx.length) := by
  have hcopy : copyAt (zalloc pfx.length) 0 pfx = .ok pfx := by
    simpa using copyAt_over [] (zalloc pfx.length) [] pfx (by simp [zalloc])
  simp only [generate, Nat.zero_mul, Nat.add_zero, if_neg (Nat.not_lt_zero _), hcopy]
  show storeAt pfx pfx.length 0 >>= _ = _
  rw [storeAt_past, error_bind]

/-- The words of the draws `i < len` take at most `16 * len` bytes. -/
theorem length_drawn_le {d : DictInfo} (hd : d ∈ dicts) (rand : Nat → UInt32) (len : Nat) :
    ((List.range len).flatMap fun i => wordBytes (d.drawn (rand i))).length ≤ 16 * len := by
  rw [List.length_flatMap]
  calc ((List.range len).map (List.length ∘ fun i => wordBytes (d.drawn (rand i)))).sum
      ≤ ((List.range len).map (List.length ∘ fun i => wordBytes (d.drawn (rand i)))).length
          • 16 :=
        List.sum_le_card_nsmul _ _ (by
          simp only [List.mem_map, Function.comp_apply]
          rintro _ ⟨i, -, rfl⟩
          exact (dicts_words d hd _ (d.drawn_mem _)).1)
    _ = 16 * len := by simp [Nat.mul_comm]

/-- For `1 ≤ len ≤ INT_MAX / 17`, a dictionary of `s_dicts` and a prefix without NUL, every
store stays in the block and `init` receives the prefix followed by the `len` drawn words. -/
theorem generate_eq {pfx : List UInt8} {dictId len : Nat} {d : DictInfo} (hpfx : 0 ∉ pfx)
    (hd : dicts.get? dictId = some d) (hlen : 0 < len) (hmax : len * 17 ≤ 2147483647)
    (rand : Nat → UInt32) :
    generate pfx dictId len rand =
      .ok (pfx ++ (List.range len).flatMap fun i => wordBytes (d.drawn (rand i))) := by
  have hmem : d ∈ dicts := List.get?_mem hd
  set words := (List.range len).flatMap fun i => wordBytes (d.drawn (rand i))
  have hwords : (List.range' 0 len).flatMap (d.stepBytes rand) = words := by
    rw [← List.range_eq_range']
    congr 1
    funext i
    exact d.stepBytes_of_delim (dicts_delim d hmem) rand i
  have hlen' : words.length ≤ 16 * len := length_drawn_le hmem rand len
  -- the block: the prefix, the words, then at least one zero byte
  have hblock : zalloc (pfx.length + len * 17) =
      [] ++ (zalloc pfx.length ++ zalloc words.length) ++
        0 :: zalloc (len * 17 - words.length - 1) := by
    simp only [zalloc, List.nil_append, ← List.replicate_succ, List.append_replicate_replicate]
    congr 1
    omega
  have hcopy := copyAt_over [] (zalloc pfx.length ++ zalloc words.length)
    (0 :: zalloc (len * 17 - words.length - 1)) (pfx ++ words) (by simp [zalloc])
  rw [← hblock, List.nil_append, copyAt_append, List.length_nil, Nat.zero_add] at hcopy
  obtain ⟨buf, hpre, hbuf⟩ := bind_eq_ok hcopy
  have hnul : 0 ∉ pfx ++ words := by
    simp only [List.mem_append, not_or, words, List.mem_flatMap, not_exists, not_and]
    exact ⟨hpfx, fun i _ => (dicts_words d hmem _ (d.drawn_mem _)).2⟩
  have hstrlen : strlen ((pfx ++ words) ++ 0 :: zalloc (len * 17 - words.length - 1)) =
      (pfx ++ words).length := by
    rw [strlen, List.takeWhile_append_of_pos fun a ha => by
      simpa using ne_of_mem_of_not_mem ha hnul]
    simp
  simp only [generate, if_neg (Nat.not_lt.mpr hmax), pure_bind, hpre, ok_bind, wordLoop_eq hd,
    hwords, hbuf, map_ok]
  rw [← List.length_append, storeAt_over, ok_bind, hstrlen, List.take_left' rfl]
  rfl

/-- A four-digit PIN after the prefix `"x"`, from the draws `3`, `4`, `5`, `6`. -/
theorem generate_pin_after_prefix :
    0 ∉ ([0x78] : List UInt8) ∧
      dicts.get? 1 = some ⟨dictNumbers, 0, List.cons_ne_nil _ _⟩ ∧
      generate [0x78] 1 4 (fun i => (i + 3).toUInt32) = .ok [0x78, 0x33, 0x34, 0x35, 0x36] :=
  ⟨by decide, rfl,
    (@generate_eq [0x78] 1 4 _ (by decide) rfl (by decide) (by decide) _).trans rfl⟩

end Todokanai.Keys
