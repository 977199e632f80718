import Mathlib.Data.Nat.Digits.Defs

/-! # Words as bytes

Unsigned integers of a fixed width in memory, in either byte order. -/

namespace RqRoute

/-- The `w` low bytes of `n`, the lowest first. -/
def lowBytes : ℕ → ℕ → List UInt8
  | 0, _ => []
  | w + 1, n => UInt8.ofNat n :: lowBytes w (n / 256)

/-- The number with these bytes, the lowest first. -/
def ofLowBytes (bytes : List UInt8) : ℕ := Nat.ofDigits 256 (bytes.map UInt8.toNat)

@[simp] theorem length_lowBytes (w n : ℕ) : (lowBytes w n).length = w := by
  induction w generalizing n with
  | zero => rfl
  | succ w ih => simp [lowBytes, ih]

@[simp] theorem ofLowBytes_nil : ofLowBytes [] = 0 := rfl

theorem ofLowBytes_cons (b : UInt8) (bytes : List UInt8) :
    ofLowBytes (b :: bytes) = b.toNat + 256 * ofLowBytes bytes := by
  simp [ofLowBytes, Nat.ofDigits_cons]

theorem ofLowBytes_lt (bytes : List UInt8) : ofLowBytes bytes < 256 ^ bytes.length := by
  have hdigits : ∀ d ∈ bytes.map UInt8.toNat, d < 256 := by
    intro d hd
    obtain ⟨b, -, rfl⟩ := List.mem_map.1 hd
    exact b.toNat_lt
  simpa [ofLowBytes] using Nat.ofDigits_lt_base_pow_length (by omega) hdigits

theorem ofLowBytes_lowBytes (w n : ℕ) : ofLowBytes (lowBytes w n) = n % 256 ^ w := by
  induction w generalizing n with
  | zero => simp [lowBytes, Nat.mod_one]
  | succ w ih =>
      rw [lowBytes, ofLowBytes_cons, ih, pow_succ', Nat.mod_mul]
      simp

theorem lowBytes_ofLowBytes (bytes : List UInt8) :
    lowBytes bytes.length (ofLowBytes bytes) = bytes := by
  induction bytes with
  | nil => rfl
  | cons b bytes ih =>
      have hb : b.toNat < 256 := b.toNat_lt
      have hlow : UInt8.ofNat (b.toNat + 256 * ofLowBytes bytes) = b := by
        apply UInt8.toNat_inj.1
        simp only [UInt8.toNat_ofNat']
        omega
      have hhigh : (b.toNat + 256 * ofLowBytes bytes) / 256 = ofLowBytes bytes := by omega
      rw [List.length_cons, ofLowBytes_cons, lowBytes, hlow, hhigh, ih]

/-! ## Byte orders -/

inductive ByteOrder where
  | little
  | big
deriving DecidableEq, Repr

namespace ByteOrder

/-- Between the bytes of a word, the lowest first, and their places in memory. -/
def arrange : ByteOrder → List UInt8 → List UInt8
  | little, bytes => bytes
  | big, bytes => bytes.reverse

def opposite : ByteOrder → ByteOrder
  | little => big
  | big => little

@[simp] theorem length_arrange (e : ByteOrder) (bytes : List UInt8) :
    (e.arrange bytes).length = bytes.length := by
  cases e <;> simp [arrange]

@[simp] theorem arrange_arrange (e : ByteOrder) (bytes : List UInt8) :
    e.arrange (e.arrange bytes) = bytes := by
  cases e <;> simp [arrange]

theorem opposite_arrange (e : ByteOrder) (bytes : List UInt8) :
    e.opposite.arrange (e.arrange bytes) = bytes.reverse := by
  cases e <;> simp [arrange, opposite]

/-- The word `n` of `w` bytes as it stands in memory. -/
def store (e : ByteOrder) (w n : ℕ) : List UInt8 := e.arrange (lowBytes w n)

/-- The word that these bytes of memory hold. -/
def load (e : ByteOrder) (bytes : List UInt8) : ℕ := ofLowBytes (e.arrange bytes)

@[simp] theorem length_store (e : ByteOrder) (w n : ℕ) : (e.store w n).length = w := by
  simp [store]

theorem load_lt (e : ByteOrder) (bytes : List UInt8) : e.load bytes < 256 ^ bytes.length := by
  simpa [load] using ofLowBytes_lt (e.arrange bytes)

theorem load_store (e : ByteOrder) (w n : ℕ) : e.load (e.store w n) = n % 256 ^ w := by
  simp [load, store, ofLowBytes_lowBytes]

theorem store_load (e : ByteOrder) {w : ℕ} {bytes : List UInt8} (h : bytes.length = w) :
    e.store w (e.load bytes) = bytes := by
  have hback := lowBytes_ofLowBytes (e.arrange bytes)
  rw [length_arrange, h] at hback
  rw [store, load, hback, arrange_arrange]

/-- Read in the wrong order, a word has its bytes reversed. -/
theorem opposite_load_store (e : ByteOrder) (w n : ℕ) :
    e.opposite.load (e.store w n) = ofLowBytes (lowBytes w n).reverse := by
  rw [load, store, opposite_arrange]

end ByteOrder

end RqRoute
