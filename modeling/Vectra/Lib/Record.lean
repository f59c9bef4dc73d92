import Vectra.Lib.Bytes

/-!
# Records in a byte-addressed memory

A field is an offset and a size within its record. Writing one field keeps
every field whose bytes are elsewhere, of the same record or of another.
-/

namespace Vectra.Lib

structure Field where
  offset : ℕ
  size : ℕ

namespace Field

variable {m m' : Bytes} {f g : Field} {a b v w : ℕ}

def get (f : Field) (m : Bytes) (a : ℕ) : ℕ := readLE m (a + f.offset) f.size

def set (f : Field) (m : Bytes) (a v : ℕ) : Bytes := writeLE m (a + f.offset) f.size v

/-- The bytes of two fields, of the same record or of two records, do not meet. -/
def Apart (f : Field) (a : ℕ) (g : Field) (b : ℕ) : Prop :=
  a + f.offset + f.size ≤ b + g.offset ∨ b + g.offset + g.size ≤ a + f.offset

theorem get_lt (f : Field) (m : Bytes) (a : ℕ) : f.get m a < 256 ^ f.size := readLE_lt _ _ _

@[simp] theorem get_set : f.get (f.set m a v) a = v % 256 ^ f.size := readLE_writeLE_self

theorem get_set_four (hf : f.size = 4) (hv : v < 2 ^ 32) : f.get (f.set m a v) a = v := by
  rw [get_set, hf]
  exact Nat.mod_eq_of_lt (lt_of_lt_of_eq hv (by norm_num))

theorem get_set_eight (hf : f.size = 8) (hv : v < 2 ^ 64) : f.get (f.set m a v) a = v := by
  rw [get_set, hf]
  exact Nat.mod_eq_of_lt (lt_of_lt_of_eq hv (by norm_num))

theorem get_set_of_apart (h : f.Apart a g b) : g.get (f.set m a v) b = g.get m b :=
  readLE_writeLE_of_disjoint (by unfold Apart at h; omega)

theorem get_congr (h : ∀ x, a + f.offset ≤ x → x < a + f.offset + f.size → m' x = m x) :
    f.get m' a = f.get m a :=
  readLE_congr h

theorem set_out {x : ℕ} (h : x < a + f.offset ∨ a + f.offset + f.size ≤ x) :
    f.set m a v x = m x :=
  writeLE_out h

theorem set_set : f.set (f.set m a v) a w = f.set m a w := by
  funext x
  by_cases h : a + f.offset ≤ x ∧ x < a + f.offset + f.size
  · unfold set
    rw [writeLE_in h.1 h.2, writeLE_in h.1 h.2]
  · have hout : x < a + f.offset ∨ a + f.offset + f.size ≤ x := by omega
    rw [set_out hout, set_out hout, set_out hout]

end Field

end Vectra.Lib
