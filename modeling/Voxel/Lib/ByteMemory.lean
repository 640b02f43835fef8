/-
Module: Voxel.Lib.ByteMemory
Layer: Lib
Purpose: The bytes of a little-endian 64-bit word, and a byte-addressed memory with 64-bit addresses: loads
  and stores of words of up to eight bytes, and the laws that relate the two at offsets from one base address.
Trusted boundary: none
Main exports: readByte, writeByte, readByte_writeByte_self, readByte_writeByte_of_ne, ByteMemory,
  ByteMemory.store, ByteMemory.load, ByteMemory.store_offset, ByteMemory.load_of_bytes,
  ByteMemory.storeFields, ByteMemory.storeFields_field, ByteMemory.load_storeFields
-/
import Mathlib.Algebra.Group.Nat.Defs

namespace Voxel.Lib

/-! ## Words and their bytes -/

/-- Byte `k` of a word, counted from the least significant one. -/
def readByte (word : BitVec 64) (k : Nat) : BitVec 8 := word.extractLsb' (8 * k) 8

/-- The word with byte `k` replaced. -/
def writeByte (word : BitVec 64) (k : Nat) (byte : BitVec 8) : BitVec 64 :=
  (word &&& ~~~(0xFF#64 <<< (8 * k))) ||| (byte.setWidth 64 <<< (8 * k))

/-- The low byte mask has exactly the bits below 8. -/
theorem getLsbD_lowMask (i : Nat) : (0xFF#64).getLsbD i = decide (i < 8) := by
  rw [show (0xFF#64) = (BitVec.allOnes 8).setWidth 64 from rfl, BitVec.getLsbD_setWidth,
    BitVec.getLsbD_allOnes]
  by_cases low : i < 8
  · simp [low, show i < 64 by omega]
  · simp [low]

@[simp] theorem readByte_writeByte_self (word : BitVec 64) {k : Nat} (inside : k < 8)
    (byte : BitVec 8) : readByte (writeByte word k byte) k = byte := by
  apply BitVec.eq_of_getLsbD_eq
  intro i low
  have bound : 8 * k + i < 64 := by omega
  simp only [readByte, writeByte, BitVec.getLsbD_extractLsb', BitVec.getLsbD_or,
    BitVec.getLsbD_and, BitVec.getLsbD_not, BitVec.getLsbD_shiftLeft, getLsbD_lowMask,
    BitVec.getLsbD_setWidth]
  simp [low, bound, show i < 64 by omega, show ¬ 8 * k + i < 8 * k by omega]

theorem readByte_writeByte_of_ne (word : BitVec 64) {j k : Nat} (different : j ≠ k) (inside : j < 8)
    (byte : BitVec 8) : readByte (writeByte word k byte) j = readByte word j := by
  apply BitVec.eq_of_getLsbD_eq
  intro i low
  have bound : 8 * j + i < 64 := by omega
  simp only [readByte, writeByte, BitVec.getLsbD_extractLsb', BitVec.getLsbD_or,
    BitVec.getLsbD_and, BitVec.getLsbD_not, BitVec.getLsbD_shiftLeft, getLsbD_lowMask,
    BitVec.getLsbD_setWidth]
  rcases Nat.lt_or_gt_of_ne different with below | above
  · simp [low, bound, show 8 * j + i < 8 * k by omega]
  · have high : ¬ 8 * j + i < 8 * k := by omega
    have outside : ¬ 8 * j + i - 8 * k < 8 := by omega
    have past : byte.getLsbD (8 * j + i - 8 * k) = false := BitVec.getLsbD_of_ge _ _ (by omega)
    simp [low, bound, high, outside, past]

/-- Bit `i` of a word is bit `i % 8` of byte `i / 8`. -/
theorem getLsbD_readByte (word : BitVec 64) (i : Nat) :
    word.getLsbD i = (readByte word (i / 8)).getLsbD (i % 8) := by
  have inside : i % 8 < 8 := Nat.mod_lt _ (by decide)
  rw [readByte, BitVec.getLsbD_extractLsb']
  simp [inside, Nat.div_add_mod]

/-- A word is determined by its eight bytes. -/
theorem word_ext {word other : BitVec 64} (same : ∀ k < 8, readByte word k = readByte other k) :
    word = other := by
  apply BitVec.eq_of_getLsbD_eq
  intro i low
  rw [getLsbD_readByte word, getLsbD_readByte other, same (i / 8) (by omega)]

/-! ## Memory -/

/-- A memory of bytes. -/
abbrev ByteMemory := BitVec 64 → BitVec 8

namespace ByteMemory

/-- Store the low `n` bytes of a word, least significant byte first. -/
def store (mem : ByteMemory) (address : BitVec 64) (n : Nat) (word : BitVec 64) : ByteMemory :=
  fun a => if (a - address).toNat < n then readByte word (a - address).toNat else mem a

/-- Load `n` bytes, least significant byte first; the bytes above are zero. -/
def load (mem : ByteMemory) (address : BitVec 64) : Nat → BitVec 64
  | 0 => 0
  | n + 1 => writeByte (mem.load address n) n (mem (address + BitVec.ofNat 64 n))

/-- The distance between two offsets from one base. -/
theorem offset_sub (base : BitVec 64) {i d : Nat} (before : d ≤ i) (small : i < 2 ^ 64) :
    (base + BitVec.ofNat 64 i - (base + BitVec.ofNat 64 d)).toNat = i - d := by
  simp only [BitVec.toNat_sub, BitVec.toNat_add, BitVec.toNat_ofNat]
  have := base.isLt
  omega

/-- The distance back from an offset to a later one is huge. -/
theorem offset_sub_back (base : BitVec 64) {i d : Nat} (after : i < d) (small : d < 2 ^ 64) :
    (base + BitVec.ofNat 64 i - (base + BitVec.ofNat 64 d)).toNat = 2 ^ 64 - (d - i) := by
  simp only [BitVec.toNat_sub, BitVec.toNat_add, BitVec.toNat_ofNat]
  have := base.isLt
  omega

/-- What a store at offset `d` leaves at offset `i` from the same base. -/
theorem store_offset (mem : ByteMemory) (base word : BitVec 64) {d i n : Nat} (small : i < 2 ^ 63)
    (inside : d + n < 2 ^ 63) :
    (mem.store (base + BitVec.ofNat 64 d) n word) (base + BitVec.ofNat 64 i) =
      if d ≤ i ∧ i < d + n then readByte word (i - d) else mem (base + BitVec.ofNat 64 i) := by
  rw [store]
  rcases Nat.lt_or_ge i d with after | before
  · rw [offset_sub_back base after (by omega), if_neg (by omega), if_neg (by omega)]
  · rw [offset_sub base before (by omega)]
    by_cases within : i < d + n
    · rw [if_pos (by omega), if_pos ⟨before, within⟩]
    · rw [if_neg (by omega), if_neg fun both => within both.2]

/-- Outside its bytes a store changes nothing. -/
theorem store_of_ne (mem : ByteMemory) (word : BitVec 64) {address a : BitVec 64} {n : Nat}
    (apart : ∀ i < n, a ≠ address + BitVec.ofNat 64 i) : (mem.store address n word) a = mem a := by
  rw [store, if_neg]
  intro inside
  apply apart _ inside
  rw [BitVec.ofNat_toNat, BitVec.setWidth_eq, BitVec.add_comm, BitVec.sub_add_cancel]

/-- The bytes of a loaded word. -/
theorem readByte_load (mem : ByteMemory) (address : BitVec 64) {n k : Nat} (inside : k < n)
    (atMost : n ≤ 8) : readByte (mem.load address n) k = mem (address + BitVec.ofNat 64 k) := by
  induction n with
  | zero => omega
  | succ n inductionHypothesis =>
      rw [load]
      by_cases last : k = n
      · rw [last, readByte_writeByte_self _ (by omega)]
      · rw [readByte_writeByte_of_ne _ last (by omega), inductionHypothesis (by omega) (by omega)]

/-- Above the bytes it loads, a loaded word is zero. -/
theorem readByte_load_high (mem : ByteMemory) (address : BitVec 64) {n k : Nat} (above : n ≤ k)
    (inside : k < 8) : readByte (mem.load address n) k = 0 := by
  induction n with
  | zero =>
      apply BitVec.eq_of_getLsbD_eq
      intro i _
      simp [load, readByte]
  | succ n inductionHypothesis =>
      rw [load, readByte_writeByte_of_ne _ (by omega) inside, inductionHypothesis (by omega)]

/-- The bytes in memory are the word they belong to. -/
theorem load_of_bytes {mem : ByteMemory} {address word : BitVec 64} {n : Nat} (atMost : n ≤ 8)
    (bytes : ∀ k < n, mem (address + BitVec.ofNat 64 k) = readByte word k)
    (high : ∀ k, n ≤ k → k < 8 → readByte word k = 0) : mem.load address n = word := by
  apply word_ext
  intro k inside
  rcases Nat.lt_or_ge k n with low | above
  · rw [readByte_load mem address low atMost, bytes k low]
  · rw [readByte_load_high mem address above inside, high k above inside]

/-- A load depends only on the bytes it reads. -/
theorem load_congr {mem other : ByteMemory} {address : BitVec 64} {n : Nat}
    (same : ∀ k < n, mem (address + BitVec.ofNat 64 k) = other (address + BitVec.ofNat 64 k)) :
    mem.load address n = other.load address n := by
  induction n with
  | zero => rfl
  | succ n inductionHypothesis =>
      rw [load, load, inductionHypothesis fun k inside => same k (by omega), same n (by omega)]

/-- A word that was stored is loaded. -/
theorem load_store (mem : ByteMemory) (address word : BitVec 64) :
    (mem.store address 8 word).load address 8 = word := by
  apply load_of_bytes (Nat.le_refl 8)
  · intro k inside
    have distance : (address + BitVec.ofNat 64 k - address).toNat = k := by
      rw [BitVec.add_comm, BitVec.add_sub_cancel, BitVec.toNat_ofNat]
      omega
    rw [store, distance, if_pos inside]
  · intro k above inside
    omega

/-! ## Fields of a structure -/

/-- A field: its offset, its size in bytes and its value. -/
structure Field where
  offset : Nat
  size : Nat
  value : BitVec 64

/-- Store the fields of a structure at `base`, in order. -/
def storeFields (mem : ByteMemory) (base : BitVec 64) (fields : List Field) : ByteMemory :=
  fields.foldl (fun m f => m.store (base + BitVec.ofNat 64 f.offset) f.size f.value) mem

/-- An offset that no field covers keeps its byte. -/
theorem storeFields_outside (mem : ByteMemory) (base : BitVec 64) {fields : List Field} {i : Nat}
    (small : i < 2 ^ 63) (inside : ∀ f ∈ fields, f.offset + f.size < 2 ^ 63)
    (outside : ∀ f ∈ fields, i < f.offset ∨ f.offset + f.size ≤ i) :
    (mem.storeFields base fields) (base + BitVec.ofNat 64 i) = mem (base + BitVec.ofNat 64 i) := by
  induction fields generalizing mem with
  | nil => rfl
  | cons f rest inductionHypothesis =>
      rw [storeFields, List.foldl_cons, ← storeFields,
        inductionHypothesis _ (fun g member => inside g (List.mem_cons_of_mem f member))
          fun g member => outside g (List.mem_cons_of_mem f member),
        store_offset mem base f.value small (inside f List.mem_cons_self)]
      rw [if_neg]
      rintro ⟨below, above⟩
      rcases outside f List.mem_cons_self with before | after
      · omega
      · omega

/-- An address outside the structure keeps its byte. -/
theorem storeFields_of_ne (mem : ByteMemory) {base a : BitVec 64} {fields : List Field} {size : Nat}
    (apart : ∀ k < size, a ≠ base + BitVec.ofNat 64 k)
    (inside : ∀ f ∈ fields, f.offset + f.size ≤ size) : (mem.storeFields base fields) a = mem a := by
  induction fields generalizing mem with
  | nil => rfl
  | cons f rest inductionHypothesis =>
      rw [storeFields, List.foldl_cons, ← storeFields,
        inductionHypothesis _ fun g member => inside g (List.mem_cons_of_mem f member)]
      apply store_of_ne
      intro i within
      have room := inside f List.mem_cons_self
      rw [BitVec.add_assoc, ← BitVec.ofNat_add]
      exact apart (f.offset + i) (by omega)

/-- The bytes of a field that no later field covers are the bytes of its value. -/
theorem storeFields_field (mem : ByteMemory) (base : BitVec 64) (before after : List Field) (f : Field)
    {k : Nat} (within : k < f.size) (inside : ∀ g ∈ f :: after, g.offset + g.size < 2 ^ 63)
    (apart : ∀ g ∈ after, f.offset + f.size ≤ g.offset ∨ g.offset + g.size ≤ f.offset) :
    (mem.storeFields base (before ++ f :: after)) (base + BitVec.ofNat 64 (f.offset + k)) =
      readByte f.value k := by
  have room := inside f List.mem_cons_self
  have split : mem.storeFields base (before ++ f :: after) =
      ((mem.storeFields base before).store (base + BitVec.ofNat 64 f.offset) f.size
        f.value).storeFields base after := by
    rw [storeFields, List.foldl_append, List.foldl_cons]
    rfl
  rw [split, storeFields_outside _ base (by omega)
    (fun g member => inside g (List.mem_cons_of_mem f member)),
    store_offset _ base f.value (by omega) room, if_pos ⟨by omega, by omega⟩, Nat.add_sub_cancel_left]
  intro g member
  rcases apart g member with later | earlier
  · omega
  · omega

/-- A word that no later field covers is loaded. -/
theorem load_storeFields (mem : ByteMemory) (base : BitVec 64) {fields : List Field} {i : Nat} {offset : Nat}
    {value : BitVec 64} (here : fields[i]? = some ⟨offset, 8, value⟩)
    (inside : ∀ g ∈ fields, g.offset + g.size < 2 ^ 63)
    (apart : ∀ g ∈ fields.drop (i + 1), offset + 8 ≤ g.offset ∨ g.offset + g.size ≤ offset) :
    (mem.storeFields base fields).load (base + BitVec.ofNat 64 offset) 8 = value := by
  obtain ⟨bound, field⟩ := List.getElem?_eq_some_iff.mp here
  have split : fields = fields.take i ++ ⟨offset, 8, value⟩ :: fields.drop (i + 1) := by
    rw [← field, ← List.drop_eq_getElem_cons bound, List.take_append_drop]
  apply load_of_bytes (Nat.le_refl 8)
  · intro k low
    rw [BitVec.add_assoc, ← BitVec.ofNat_add, split]
    apply storeFields_field mem base _ _ ⟨offset, 8, value⟩ low _ apart
    intro g member
    apply inside
    rw [split]
    exact List.mem_append_right _ member
  · intro k above low
    omega

end ByteMemory

end Voxel.Lib
