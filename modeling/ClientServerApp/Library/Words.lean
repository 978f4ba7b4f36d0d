import Mathlib.Tactic

/-! Numbers as byte strings of a fixed width, and buffers of a fixed length whose front is
overwritten. -/

/-- Which end of a number a host stores first. -/
inductive ByteOrder
  | little
  | big
  deriving DecidableEq, Repr

/-- A memory area of exactly `n` bytes. -/
abbrev Buffer (n : ℕ) := List.Vector UInt8 n

namespace Words

/-- The number whose digits in base 256 are the given bytes, most significant first. -/
def word (l : List UInt8) : ℕ := l.foldl (fun acc b => acc*256 + b.toNat) 0

/-- The lowest `width` digits in base 256, most significant first. -/
def wordBytes : ℕ → ℕ → List UInt8
  | 0,_ => []
  | width+1,n => wordBytes width (n/256) ++ [n.toUInt8]

@[simp] theorem word_concat (l : List UInt8) (b : UInt8) :
    word (l ++ [b]) = word l*256 + b.toNat := by simp [word]

@[simp] theorem wordBytes_length (width n : ℕ) : (wordBytes width n).length = width := by
  induction width generalizing n with
  | zero => rfl
  | succ width ih => simp [wordBytes,ih]

theorem word_lt (l : List UInt8) : word l < 256^l.length := by
  induction l using List.reverseRecOn with
  | nil => simp [word]
  | append_singleton l b ih =>
    have hb : b.toNat < 256 := b.toNat_lt
    rw [word_concat,List.length_append,List.length_singleton,pow_succ]
    omega

theorem word_wordBytes (width n : ℕ) (h : n < 256^width) : word (wordBytes width n) = n := by
  induction width generalizing n with
  | zero =>
    have hn : n = 0 := by simpa using h
    rw [hn]
    rfl
  | succ width ih =>
    have hq : n/256 < 256^width := by
      rw [pow_succ] at h
      omega
    have hd : n.toUInt8.toNat = n % 256 := by simp
    rw [wordBytes,word_concat,ih _ hq,hd]
    omega

theorem wordBytes_word (l : List UInt8) : wordBytes l.length (word l) = l := by
  induction l using List.reverseRecOn with
  | nil => rfl
  | append_singleton l b ih =>
    have hb : b.toNat < 256 := b.toNat_lt
    rw [List.length_append,List.length_singleton,wordBytes,word_concat]
    have hq : (word l*256 + b.toNat)/256 = word l := by omega
    have hd : (word l*256 + b.toNat).toUInt8 = b := by
      apply UInt8.toNat_inj.mp
      simp
    rw [hq,hd,ih]

end Words

namespace ByteOrder
open Words

/-- Between memory order and most-significant-first order; its own inverse. -/
def arrange : ByteOrder → List UInt8 → List UInt8
  | .little,l => l.reverse
  | .big,l => l

@[simp] theorem arrange_length (order : ByteOrder) (l : List UInt8) :
    (order.arrange l).length = l.length := by cases order <;> simp [arrange]

@[simp] theorem arrange_arrange (order : ByteOrder) (l : List UInt8) :
    order.arrange (order.arrange l) = l := by cases order <;> simp [arrange]

/-- Read a 32-bit number from memory. -/
def load32 (order : ByteOrder) (l : List UInt8) : UInt32 := UInt32.ofNat (word (order.arrange l))

/-- The memory image of a 32-bit number. -/
def store32 (order : ByteOrder) (x : UInt32) : List UInt8 := order.arrange (wordBytes 4 x.toNat)

/-- Read a 16-bit number from memory. -/
def load16 (order : ByteOrder) (l : List UInt8) : UInt16 := UInt16.ofNat (word (order.arrange l))

/-- The memory image of a 16-bit number. -/
def store16 (order : ByteOrder) (x : UInt16) : List UInt8 := order.arrange (wordBytes 2 x.toNat)

@[simp] theorem store32_length (order : ByteOrder) (x : UInt32) : (order.store32 x).length = 4 := by
  simp [store32]

@[simp] theorem store16_length (order : ByteOrder) (x : UInt16) : (order.store16 x).length = 2 := by
  simp [store16]

@[simp] theorem load32_store32 (order : ByteOrder) (x : UInt32) :
    order.load32 (order.store32 x) = x := by
  simp [load32,store32,word_wordBytes 4 x.toNat x.toNat_lt]

@[simp] theorem load16_store16 (order : ByteOrder) (x : UInt16) :
    order.load16 (order.store16 x) = x := by
  simp [load16,store16,word_wordBytes 2 x.toNat x.toNat_lt]

theorem store32_load32 (order : ByteOrder) {l : List UInt8} (h : l.length = 4) :
    order.store32 (order.load32 l) = l := by
  have hl : (order.arrange l).length = 4 := by simpa using h
  have hw := word_lt (order.arrange l)
  rw [hl] at hw
  rw [store32,load32,UInt32.toNat_ofNat_of_lt' hw,← hl,wordBytes_word,arrange_arrange]

theorem store16_load16 (order : ByteOrder) {l : List UInt8} (h : l.length = 2) :
    order.store16 (order.load16 l) = l := by
  have hl : (order.arrange l).length = 2 := by simpa using h
  have hw := word_lt (order.arrange l)
  rw [hl] at hw
  rw [store16,load16,UInt16.toNat_ofNat_of_lt' hw,← hl,wordBytes_word,arrange_arrange]

end ByteOrder

namespace Buffer
variable {n : ℕ}

/-- A buffer of zero bytes. -/
def zeroed (n : ℕ) : Buffer n := ⟨List.replicate n 0,by simp⟩

/-- A buffer full of one byte. -/
def filled (n : ℕ) (b : UInt8) : Buffer n := ⟨List.replicate n b,by simp⟩

/-- Write bytes over the front of a buffer; the rest keeps its content. -/
def overwrite (b : Buffer n) (got : List UInt8) : Buffer n :=
  ⟨(got ++ b.toList.drop got.length).take n,by simp; omega⟩

/-- The `len` bytes from position `start` on. -/
def slice (b : Buffer n) (start len : ℕ) (h : start + len ≤ n) : Buffer len :=
  ⟨(b.toList.drop start).take len,by simp; omega⟩

@[simp] theorem zeroed_toList (n : ℕ) : (zeroed n).toList = List.replicate n 0 := rfl

@[simp] theorem filled_toList (n : ℕ) (b : UInt8) : (filled n b).toList = List.replicate n b := rfl

@[simp] theorem slice_toList (b : Buffer n) (start len : ℕ) (h : start + len ≤ n) :
    (b.slice start len h).toList = (b.toList.drop start).take len := rfl

theorem overwrite_toList (b : Buffer n) {got : List UInt8} (h : got.length ≤ n) :
    (b.overwrite got).toList = got ++ b.toList.drop got.length := by
  change (got ++ b.toList.drop got.length).take n = _
  apply List.take_of_length_le
  simp
  omega

/-- A full write leaves nothing of the old content. -/
@[simp] theorem overwrite_full (b : Buffer n) {got : List UInt8} (h : got.length = n) :
    b.overwrite got = ⟨got,h⟩ := by
  apply List.Vector.eq
  rw [overwrite_toList b h.le,List.drop_eq_nil_of_le (by simp [h]),List.append_nil]
  rfl

@[simp] theorem overwrite_nil (b : Buffer n) : b.overwrite [] = b := by
  apply List.Vector.eq
  rw [overwrite_toList b (by simp)]
  rfl

end Buffer
