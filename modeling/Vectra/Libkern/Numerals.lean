import Vectra.Lib.Numeral
import Vectra.Libkern.Klog

/-!
# The numerals of the integer directives

`put_unsigned` and the case `X` collect digits in a buffer on the stack, and `put_signed`
takes an `int`. An argument of `%ld` or `%lld` that is no `int` is cut to its low 32 bits on
the way.
-/

namespace Vectra

open Lib

/-! ## The digit buffer -/

/-- `buf` and `i`, and the indices that `buf` has been accessed at. -/
structure DigitBuf where
  buf : ℕ → BitVec 8
  i : ℕ
  indices : List ℕ

def DigitBuf.empty : DigitBuf := ⟨fun _ => 0, 0, []⟩

/-- `buf[i++] = c`. -/
def DigitBuf.push (b : DigitBuf) (c : BitVec 8) : DigitBuf where
  buf := Function.update b.buf b.i c
  i := b.i + 1
  indices := b.i :: b.indices

/-- `while (value)`; the fuel counts rounds. -/
def collectDigits (ten : Char) (base : ℕ) : ℕ → ℕ → DigitBuf → Option DigitBuf
  | 0, _, _ => none
  | fuel + 1, value, b =>
      if value = 0 then some b
      else collectDigits ten base fuel (value / base) (b.push (digitByte ten (value % base)))

/-- `while (i) uart_putc(buf[--i])`, with the indices of all accesses. -/
def emitDigits (buf : ℕ → BitVec 8) : ℕ → List ℕ → List (BitVec 8) × List ℕ
  | 0, indices => ([], indices)
  | i + 1, indices =>
      let r := emitDigits buf i (i :: indices)
      (buf i :: r.1, r.2)

/-- Both loops, one round for each digit and a last one. -/
def putDigits (ten : Char) (value base : ℕ) : Option (List (BitVec 8) × List ℕ) :=
  if value = 0 then some ([byte '0'], [])
  else (collectDigits ten base (value + 1) value .empty).map fun b =>
    emitDigits b.buf b.i b.indices

/-- `put_unsigned`, with the accesses to its `buf[32]`. -/
def putUnsignedBuf (value base : ℕ) : Option (List (BitVec 8) × List ℕ) := putDigits 'a' value base

/-- The case `X`, with the accesses to its `buf[16]`. -/
def putUpperBuf (value : ℕ) : Option (List (BitVec 8) × List ℕ) := putDigits 'A' value 16

/-- `put_signed` of an `int`. -/
def putSignedBuf (value : BitVec 32) : Option (List (BitVec 8) × List ℕ) :=
  if value.toInt < 0 then
    (putUnsignedBuf ((-(value.toInt + 1)).toNat + 1) 10).map fun r => (byte '-' :: r.1, r.2)
  else putUnsignedBuf value.toInt.toNat 10

section Buffer

variable {ten : Char} {value base fuel : ℕ} {b : DigitBuf}

/-- The bytes below `i`. -/
def DigitBuf.content (b : DigitBuf) : List (BitVec 8) := (List.range b.i).map b.buf

@[simp] theorem DigitBuf.content_length : b.content.length = b.i := by simp [content]

theorem DigitBuf.content_push (c : BitVec 8) : (b.push c).content = b.content ++ [c] := by
  have hbelow : (List.range b.i).map (b.push c).buf = (List.range b.i).map b.buf := by
    apply List.map_congr_left
    intro j hj
    exact Function.update_of_ne (List.mem_range.mp hj).ne _ _
  have hlast : (b.push c).buf b.i = c := Function.update_self _ _ _
  unfold content
  change (List.range (b.i + 1)).map (b.push c).buf = _
  rw [List.range_succ, List.map_append, hbelow, List.map_singleton, hlast]

/-- The first loop appends the digits, the last one first. -/
theorem collectDigits_eq (ten : Char) (b : DigitBuf) (hbase : 1 < base) (hfuel : value < fuel) :
    ∃ c, collectDigits ten base fuel value b = some c ∧
      c.content = b.content ++ (Nat.digits base value).map (digitByte ten) ∧
      ∀ j ∈ c.indices, j ∈ b.indices ∨ j < c.i := by
  induction fuel generalizing value b with
  | zero => omega
  | succ fuel ih =>
      rw [collectDigits]
      by_cases hvalue : value = 0
      · subst hvalue
        exact ⟨b, if_pos rfl, by simp, fun j hj => .inl hj⟩
      · have hless : value / base < value := Nat.div_lt_self (by omega) hbase
        obtain ⟨c, hc, hcontent, hindices⟩ := ih (b.push (digitByte ten (value % base)))
          (show value / base < fuel by omega)
        rw [DigitBuf.content_push] at hcontent
        have hdigits : c.content = b.content ++ (Nat.digits base value).map (digitByte ten) := by
          rw [hcontent, Nat.digits_def' hbase (Nat.pos_of_ne_zero hvalue), List.map_cons,
            List.append_assoc, List.singleton_append]
        refine ⟨c, by rw [if_neg hvalue, hc], hdigits, fun j hj => ?_⟩
        rcases hindices j hj with hj | hj
        · rcases List.mem_cons.mp hj with rfl | hj
          · right
            have hlength := congrArg List.length hcontent
            simp only [List.length_append, DigitBuf.content_length, List.length_singleton]
              at hlength
            omega
          · exact .inl hj
        · exact .inr hj

/-- The second loop puts out what is below `i`, the last byte first. -/
theorem emitDigits_eq (buf : ℕ → BitVec 8) (n : ℕ) (indices : List ℕ) :
    (emitDigits buf n indices).1 = ((List.range n).map buf).reverse ∧
      ∀ j ∈ (emitDigits buf n indices).2, j ∈ indices ∨ j < n := by
  induction n generalizing indices with
  | zero => exact ⟨rfl, fun j hj => .inl hj⟩
  | succ n ih =>
      obtain ⟨hbytes, hindices⟩ := ih (n :: indices)
      refine ⟨?_, fun j hj => ?_⟩
      · change buf n :: (emitDigits buf n (n :: indices)).1 = _
        rw [hbytes, List.range_succ, List.map_append, List.reverse_append]
        rfl
      · rcases hindices j hj with hj | hj
        · rcases List.mem_cons.mp hj with rfl | hj
          · exact .inr (Nat.lt_succ_self _)
          · exact .inl hj
        · exact .inr (by omega)

/-- Both loops end, put out the numeral, and stay below the number of digits. -/
theorem putDigits_eq (A : Alphabet (BitVec 8) base) (hA : A.digit = digitByte ten)
    (hbase : 1 < base) (value : ℕ) :
    ∃ indices, putDigits ten value base = some (A.numeral value, indices) ∧
      ∀ j ∈ indices, j < (Nat.digits base value).length := by
  unfold putDigits Alphabet.numeral
  rw [hA]
  by_cases hvalue : value = 0
  · rw [if_pos hvalue, if_pos hvalue]
    exact ⟨[], rfl, by simp⟩
  · rw [if_neg hvalue, if_neg hvalue]
    obtain ⟨c, hc, hcontent, hindices⟩ := collectDigits_eq ten .empty hbase
      (Nat.lt_succ_self value)
    obtain ⟨hbytes, haccesses⟩ := emitDigits_eq c.buf c.i c.indices
    have hdigits : c.content = (Nat.digits base value).map (digitByte ten) := hcontent
    have hi : c.i = (Nat.digits base value).length := by
      rw [← DigitBuf.content_length, hdigits, List.length_map]
    refine ⟨(emitDigits c.buf c.i c.indices).2, ?_, fun j hj => ?_⟩
    · rw [hc, ← hdigits]
      unfold DigitBuf.content
      rw [← hbytes]
      rfl
    · rw [← hi]
      rcases haccesses j hj with hj | hj
      · exact (hindices j hj).resolve_left List.not_mem_nil
      · exact hj

end Buffer

/-! ## The three alphabets -/

/-- The value of a digit, with the letter that stands for ten. -/
def readDigit (ten : Char) (base : ℕ) (c : BitVec 8) : Option ℕ :=
  let d :=
    if '0'.toNat ≤ c.toNat ∧ c.toNat ≤ '9'.toNat then c.toNat - '0'.toNat
    else if ten.toNat ≤ c.toNat then c.toNat - ten.toNat + 10
    else base
  if d < base then some d else none

def decimal : Alphabet (BitVec 8) 10 where
  digit := digitByte 'a'
  value := readDigit 'a' 10
  value_digit := by decide

def lowerHex : Alphabet (BitVec 8) 16 where
  digit := digitByte 'a'
  value := readDigit 'a' 16
  value_digit := by decide

def upperHex : Alphabet (BitVec 8) 16 where
  digit := digitByte 'A'
  value := readDigit 'A' 16
  value_digit := by decide

theorem putUnsigned_decimal (value : ℕ) : putUnsigned value 10 = decimal.numeral value := rfl

theorem putUnsigned_lowerHex (value : ℕ) : putUnsigned value 16 = lowerHex.numeral value := rfl

theorem putUpper_upperHex (value : ℕ) : putUpper value = upperHex.numeral value := rfl

/-- A buffer of as many bytes as a numeral may have digits is large enough. -/
theorem putDigits_below (ten : Char) {base n value : ℕ} (A : Alphabet (BitVec 8) base)
    (hA : A.digit = digitByte ten) (hbase : 1 < base) (h : value < base ^ n) :
    ∃ indices, putDigits ten value base = some (A.numeral value, indices) ∧
      ∀ j ∈ indices, j < n := by
  obtain ⟨indices, hput, hindices⟩ := putDigits_eq A hA hbase value
  have hlength := (Nat.digits_length_le_iff hbase value).mpr h
  exact ⟨indices, hput, fun j hj => (hindices j hj).trans_le hlength⟩

/-! ## Signed numbers -/

theorem putSigned_neg {v : BitVec 32} (h : v.toInt < 0) :
    putSigned v.toNat = byte '-' :: decimal.numeral v.toInt.natAbs := by
  have hv := BitVec.toInt_eq_toNat_cond v
  have hlt := v.isLt
  unfold putSigned
  split at hv
  · omega
  · rw [if_pos (by omega), putUnsigned_decimal]
    congr 2
    omega

theorem putSigned_nonneg {v : BitVec 32} (h : 0 ≤ v.toInt) :
    putSigned v.toNat = decimal.numeral v.toInt.natAbs := by
  have hv := BitVec.toInt_eq_toNat_cond v
  have hlt := v.isLt
  unfold putSigned
  split at hv
  · rw [if_neg (by omega), putUnsigned_decimal]
    congr 1
    omega
  · omega

/-- `put_signed` puts out the canonical numeral of its `int`, the most negative one included. -/
theorem isNumeral_putSigned (v : BitVec 32) :
    decimal.IsNumeral (byte '-') (putSigned v.toNat) v.toInt := by
  rcases lt_or_ge v.toInt 0 with hneg | hnonneg
  · have hvalue : v.toInt = -(v.toInt.natAbs : ℤ) := by omega
    rw [putSigned_neg hneg]
    nth_rewrite 2 [hvalue]
    exact Alphabet.isNumeral_minus (by decide) (by omega)
  · have hvalue : v.toInt = (v.toInt.natAbs : ℤ) := by omega
    rw [putSigned_nonneg hnonneg]
    nth_rewrite 2 [hvalue]
    exact Alphabet.isNumeral_numeral (by decide) (by decide)

theorem putSignedBuf_eq (v : BitVec 32) :
    ∃ indices, putSignedBuf v = some (putSigned v.toNat, indices) ∧ ∀ j ∈ indices, j < 32 := by
  have hv := BitVec.toInt_eq_toNat_cond v
  have hlt := v.isLt
  have hroom : v.toInt.natAbs < 10 ^ 32 := by
    have hpow : 2 ^ 32 < 10 ^ 32 := by decide
    split at hv <;> omega
  obtain ⟨indices, hput, hindices⟩ := putDigits_below 'a' decimal rfl (by decide) hroom
  unfold putSignedBuf putUnsignedBuf
  rcases lt_or_ge v.toInt 0 with hneg | hnonneg
  · have hmagnitude : (-(v.toInt + 1)).toNat + 1 = v.toInt.natAbs := by omega
    rw [if_pos hneg, hmagnitude, hput, putSigned_neg hneg]
    exact ⟨indices, rfl, hindices⟩
  · have hmagnitude : v.toInt.toNat = v.toInt.natAbs := by omega
    rw [if_neg (by omega), hmagnitude, hput, putSigned_nonneg hnonneg]
    exact ⟨indices, rfl, hindices⟩

/-! ## The integer directives -/

inductive IntDirective
  | d | u | x | X | ld | lu | lx | lld | llu | llx
  deriving DecidableEq

namespace IntDirective

def text : IntDirective → List (BitVec 8)
  | d => [byte '%', byte 'd']
  | u => [byte '%', byte 'u']
  | x => [byte '%', byte 'x']
  | X => [byte '%', byte 'X']
  | ld => [byte '%', byte 'l', byte 'd']
  | lu => [byte '%', byte 'l', byte 'u']
  | lx => [byte '%', byte 'l', byte 'x']
  | lld => [byte '%', byte 'l', byte 'l', byte 'd']
  | llu => [byte '%', byte 'l', byte 'l', byte 'u']
  | llx => [byte '%', byte 'l', byte 'l', byte 'x']

/-- The argument in the C type that the directive takes. -/
def value (slot : BitVec 64) : IntDirective → ℤ
  | d => (slot.setWidth 32).toInt
  | u | x | X => (slot.setWidth 32).toNat
  | ld | lld => slot.toInt
  | lu | lx | llu | llx => slot.toNat

/-- What the case does with its argument: the bytes put out, and the indices of `buf`. -/
def putCase (slot : BitVec 64) : IntDirective → Option (List (BitVec 8) × List ℕ)
  | d | ld | lld => putSignedBuf (slot.setWidth 32)
  | u => putUnsignedBuf (slot.setWidth 32).toNat 10
  | x => putUnsignedBuf (slot.setWidth 32).toNat 16
  | X => putUpperBuf (slot.setWidth 32).toNat
  | lu | llu => putUnsignedBuf slot.toNat 10
  | lx | llx => putUnsignedBuf slot.toNat 16

def bufSize : IntDirective → ℕ
  | X => 16
  | _ => 32

/-- The canonical numeral in the base of the directive. -/
def IsNumeral (s : List (BitVec 8)) (v : ℤ) : IntDirective → Prop
  | d | u | ld | lu | lld | llu => decimal.IsNumeral (byte '-') s v
  | x | lx | llx => lowerHex.IsNumeral (byte '-') s v
  | X => upperHex.IsNumeral (byte '-') s v

/-- The bytes that the loop of `klog_vprintf` puts out for a 64-bit slot. -/
def emits (slot : ℕ) : IntDirective → List (BitVec 8)
  | d | ld | lld => putSigned slot
  | u => putUnsigned (slot % 2 ^ 32) 10
  | x => putUnsigned (slot % 2 ^ 32) 16
  | X => putUpper (slot % 2 ^ 32)
  | lu | llu => putUnsigned slot 10
  | lx | llx => putUnsigned slot 16

end IntDirective

/-- The bytes at `a`. -/
def Holds (m : Bytes) (a : ℕ) : List (BitVec 8) → Prop
  | [] => True
  | b :: bs => m a = b ∧ Holds m (a + 1) bs

section Directives

variable {m : Bytes} {p q : Printer} {fuel arg : ℕ} {args : List ℕ} {dir : IntDirective}
  {slot : BitVec 64} {f : ℕ → List (BitVec 8)}

theorem klogVprintf_percent (h : m p.format = byte '%') :
    klogVprintf m (fuel + 1) p =
      (directive m fuel p.read.read.advance).bind fun q => klogVprintf m fuel q.advance := by
  rw [klogVprintf, h]
  rfl

/-- A round in which the directive takes one argument. -/
theorem klogVprintf_vaArg (h : m p.format = byte '%') (hargs : q.args = arg :: args)
    (hdir : directive m fuel p.read.read.advance = q.vaArg fun a => some (f a)) :
    klogVprintf m (fuel + 1) p =
      klogVprintf m fuel ⟨q.format + 1, args, q.out ++ f arg, q.reads⟩ := by
  rw [klogVprintf_percent h, hdir]
  unfold Printer.vaArg
  rw [hargs]
  rfl

theorem directive_long (h : m p.format = byte 'l') :
    directive m fuel p = longDirective m p.read.advance := by
  unfold directive
  rw [h]
  rfl

theorem longDirective_long (h : m p.format = byte 'l') :
    longDirective m p = longLongDirective m p.read.advance := by
  unfold longDirective
  rw [h]
  rfl

theorem round_plain {c : Char} (h : m p.format = byte '%') (hc : m (p.format + 1) = byte c)
    (hargs : p.args = arg :: args) (hcase : ∀ q : Printer, m q.format = byte c →
      directive m fuel q = q.read.vaArg fun a => some (f a)) :
    ∃ reads, klogVprintf m (fuel + 1) p =
      klogVprintf m fuel ⟨p.format + 2, args, p.out ++ f arg, reads⟩ :=
  ⟨_, klogVprintf_vaArg (q := p.read.read.advance.read) h hargs (hcase _ hc)⟩

theorem round_long {c : Char} (h : m p.format = byte '%') (hl : m (p.format + 1) = byte 'l')
    (hc : m (p.format + 1 + 1) = byte c) (hargs : p.args = arg :: args)
    (hcase : ∀ q : Printer, m q.format = byte c →
      longDirective m q = q.read.vaArg fun a => some (f a)) :
    ∃ reads, klogVprintf m (fuel + 1) p =
      klogVprintf m fuel ⟨p.format + 3, args, p.out ++ f arg, reads⟩ :=
  ⟨_, klogVprintf_vaArg (q := p.read.read.advance.read.advance.read) h hargs
    ((directive_long hl).trans (hcase _ hc))⟩

theorem round_longLong {c : Char} (h : m p.format = byte '%') (hl : m (p.format + 1) = byte 'l')
    (hll : m (p.format + 1 + 1) = byte 'l') (hc : m (p.format + 1 + 1 + 1) = byte c)
    (hargs : p.args = arg :: args) (hcase : ∀ q : Printer, m q.format = byte c →
      longLongDirective m q = q.read.vaArg fun a => some (f a)) :
    ∃ reads, klogVprintf m (fuel + 1) p =
      klogVprintf m fuel ⟨p.format + 4, args, p.out ++ f arg, reads⟩ :=
  ⟨_, klogVprintf_vaArg (q := p.read.read.advance.read.advance.read.advance.read) h hargs
    ((directive_long hl).trans ((longDirective_long hll).trans (hcase _ hc)))⟩

/-- One round of the loop, over a directive that is anywhere in the format. -/
theorem klogVprintf_intDirective (hat : Holds m p.format dir.text) (hargs : p.args = arg :: args) :
    ∃ reads, klogVprintf m (fuel + 1) p =
      klogVprintf m fuel ⟨p.format + dir.text.length, args, p.out ++ dir.emits arg, reads⟩ := by
  cases dir with
  | d => exact round_plain hat.1 hat.2.1 hargs fun q hq => by unfold directive; rw [hq]; rfl
  | u => exact round_plain hat.1 hat.2.1 hargs fun q hq => by unfold directive; rw [hq]; rfl
  | x => exact round_plain hat.1 hat.2.1 hargs fun q hq => by unfold directive; rw [hq]; rfl
  | X => exact round_plain hat.1 hat.2.1 hargs fun q hq => by unfold directive; rw [hq]; rfl
  | ld =>
      exact round_long hat.1 hat.2.1 hat.2.2.1 hargs fun q hq => by
        unfold longDirective
        rw [hq]
        rfl
  | lu =>
      exact round_long hat.1 hat.2.1 hat.2.2.1 hargs fun q hq => by
        unfold longDirective
        rw [hq]
        rfl
  | lx =>
      exact round_long hat.1 hat.2.1 hat.2.2.1 hargs fun q hq => by
        unfold longDirective
        rw [hq]
        rfl
  | lld =>
      exact round_longLong hat.1 hat.2.1 hat.2.2.1 hat.2.2.2.1 hargs fun q hq => by
        unfold longLongDirective
        rw [hq]
        rfl
  | llu =>
      exact round_longLong hat.1 hat.2.1 hat.2.2.1 hat.2.2.2.1 hargs fun q hq => by
        unfold longLongDirective
        rw [hq]
        rfl
  | llx =>
      exact round_longLong hat.1 hat.2.1 hat.2.2.1 hat.2.2.2.1 hargs fun q hq => by
        unfold longLongDirective
        rw [hq]
        rfl

/-- The directive puts out the canonical numeral of its argument, wherever it stands in a
format, with all indices inside `buf`. -/
def IntDirective.Canonical (dir : IntDirective) (slot : BitVec 64) : Prop :=
  ∃ s indices, dir.putCase slot = some (s, indices) ∧ (∀ j ∈ indices, j < dir.bufSize) ∧
    dir.IsNumeral s (dir.value slot) ∧
    ∀ m p args fuel, Holds m p.format dir.text → p.args = slot.toNat :: args →
      ∃ reads, klogVprintf m (fuel + 1) p =
        klogVprintf m fuel ⟨p.format + dir.text.length, args, p.out ++ s, reads⟩

theorem putSigned_setWidth (slot : BitVec 64) :
    putSigned (slot.setWidth 32).toNat = putSigned slot.toNat := by
  unfold putSigned
  rw [BitVec.toNat_setWidth, Nat.mod_mod]

/-- The case puts out what the loop does, and its indices stay inside `buf`. -/
theorem putCase_eq (dir : IntDirective) (slot : BitVec 64) :
    ∃ indices, dir.putCase slot = some (dir.emits slot.toNat, indices) ∧
      ∀ j ∈ indices, j < dir.bufSize := by
  have hslot : slot.toNat < 10 ^ 32 := slot.isLt.trans (by decide)
  have hslot' : slot.toNat < 16 ^ 32 := slot.isLt.trans (by decide)
  have hword := (slot.setWidth 32).isLt
  have hsigned := putSignedBuf_eq (slot.setWidth 32)
  rw [putSigned_setWidth] at hsigned
  cases dir with
  | d | ld | lld => exact hsigned
  | u => exact putDigits_below 'a' decimal rfl (by decide) (hword.trans (by decide))
  | x => exact putDigits_below 'a' lowerHex rfl (by decide) (hword.trans (by decide))
  | X => exact putDigits_below 'A' upperHex rfl (by decide) (hword.trans (by decide))
  | lu | llu => exact putDigits_below 'a' decimal rfl (by decide) hslot
  | lx | llx => exact putDigits_below 'a' lowerHex rfl (by decide) hslot'

theorem canonical_iff_isNumeral :
    dir.Canonical slot ↔ dir.IsNumeral (dir.emits slot.toNat) (dir.value slot) := by
  obtain ⟨indices, hput, hindices⟩ := putCase_eq dir slot
  constructor
  · rintro ⟨s, indices', hput', _, hnumeral, _⟩
    rw [hput] at hput'
    obtain ⟨rfl, _⟩ := Prod.mk.inj (Option.some.inj hput')
    exact hnumeral
  · intro hnumeral
    exact ⟨_, indices, hput, hindices, hnumeral, fun _ _ _ _ hat hargs =>
      klogVprintf_intDirective hat hargs⟩

/-- A 64-bit number is its low half taken as an `int` exactly if it is an `int`. -/
theorem toInt_setWidth_iff (slot : BitVec 64) :
    (slot.setWidth 32).toInt = slot.toInt ↔ -2 ^ 31 ≤ slot.toInt ∧ slot.toInt < 2 ^ 31 := by
  have hhalf := BitVec.toInt_eq_toNat_cond (slot.setWidth 32)
  have hwhole := BitVec.toInt_eq_toNat_cond slot
  have hlt := slot.isLt
  rw [BitVec.toNat_setWidth] at hhalf
  split at hhalf <;> split at hwhole <;> omega

theorem isNumeral_putSigned_iff (slot : BitVec 64) :
    decimal.IsNumeral (byte '-') (putSigned slot.toNat) slot.toInt ↔
      -2 ^ 31 ≤ slot.toInt ∧ slot.toInt < 2 ^ 31 := by
  have hint := isNumeral_putSigned (slot.setWidth 32)
  rw [putSigned_setWidth] at hint
  rw [← toInt_setWidth_iff]
  constructor
  · intro h
    exact hint.value_eq h
  · intro h
    rwa [h] at hint

/-- Every integer directive puts out the canonical numeral of its argument, `%ld` and `%lld`
exactly when the argument is an `int`. -/
theorem intDirective_canonical_iff (dir : IntDirective) (slot : BitVec 64) :
    dir.Canonical slot ↔
      (dir = .ld ∨ dir = .lld → -2 ^ 31 ≤ slot.toInt ∧ slot.toInt < 2 ^ 31) := by
  have hunsigned : ∀ n, decimal.IsNumeral (byte '-') (putUnsigned n 10) n := by
    intro n
    rw [putUnsigned_decimal]
    exact Alphabet.isNumeral_numeral (by decide) (by decide)
  have hhex : ∀ n, lowerHex.IsNumeral (byte '-') (putUnsigned n 16) n := by
    intro n
    rw [putUnsigned_lowerHex]
    exact Alphabet.isNumeral_numeral (by decide) (by decide)
  have hupper : ∀ n, upperHex.IsNumeral (byte '-') (putUpper n) n := by
    intro n
    rw [putUpper_upperHex]
    exact Alphabet.isNumeral_numeral (by decide) (by decide)
  have hsigned := isNumeral_putSigned (slot.setWidth 32)
  rw [putSigned_setWidth] at hsigned
  rw [canonical_iff_isNumeral]
  cases dir with
  | ld | lld =>
      have hrange := isNumeral_putSigned_iff slot
      exact ⟨fun h _ => hrange.mp h, fun h => hrange.mpr (h (by simp))⟩
  | d => exact ⟨fun _ h => by simp at h, fun _ => hsigned⟩
  | u => exact ⟨fun _ h => by simp at h, fun _ => hunsigned _⟩
  | x => exact ⟨fun _ h => by simp at h, fun _ => hhex _⟩
  | X => exact ⟨fun _ h => by simp at h, fun _ => hupper _⟩
  | lu | llu => exact ⟨fun _ h => by simp at h, fun _ => hunsigned _⟩
  | lx | llx => exact ⟨fun _ h => by simp at h, fun _ => hhex _⟩

/-- `%ld` shows 2^31 as the most negative `int`. -/
theorem longDirective_truncates : ¬ ∀ (dir : IntDirective) (slot : BitVec 64),
    dir.Canonical slot := by
  intro h
  have hnumeral := canonical_iff_isNumeral.mp (h .ld 0x80000000#64)
  have hrange := (isNumeral_putSigned_iff 0x80000000#64).mp hnumeral
  revert hrange
  decide

end Directives

end Vectra
