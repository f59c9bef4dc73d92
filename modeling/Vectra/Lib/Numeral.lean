import Mathlib.Tactic

/-!
# Numerals in a base

An alphabet gives each digit of the base a letter and reads letters back.
A numeral has its most significant digit first. Reading one back gives its
value, and only zero starts with the letter of zero; a minus sign stands in
front of the numeral of a negative number.
-/

namespace Vectra.Lib

/-- The letters of the digits below `base`. -/
structure Alphabet (α : Type*) (base : ℕ) where
  digit : ℕ → α
  value : α → Option ℕ
  value_digit : ∀ d < base, value (digit d) = some d

namespace Alphabet

variable {α : Type*} {base : ℕ}

/-- The numeral of `n`. -/
def numeral (A : Alphabet α base) (n : ℕ) : List α :=
  if n = 0 then [A.digit 0] else ((Nat.digits base n).map A.digit).reverse

/-- The value of a word of digits that is not empty. -/
def readNat (A : Alphabet α base) : List α → Option ℕ
  | [] => none
  | s => s.foldlM (fun n c => (A.value c).map (n * base + ·)) 0

/-- The part of a numeral behind the sign. -/
def magnitude [DecidableEq α] (minus : α) : List α → List α
  | [] => []
  | c :: s => if c = minus then s else c :: s

/-- The value of a numeral that may have a sign. -/
def readInt [DecidableEq α] (A : Alphabet α base) (minus : α) (s : List α) : Option ℤ :=
  if s.head? = some minus then (A.readNat (magnitude minus s)).map fun n => -(n : ℤ)
  else (A.readNat s).map fun n => (n : ℤ)

/-- The canonical numeral of an integer: it is read back as `v`, a minus sign stands before
negative numbers and no others, and no digit zero stands in front of another digit. -/
structure IsNumeral [DecidableEq α] (A : Alphabet α base) (minus : α) (s : List α) (v : ℤ) :
    Prop where
  reads : A.readInt minus s = some v
  sign : s.head? = some minus ↔ v < 0
  leading : (magnitude minus s).head? = some (A.digit 0) → magnitude minus s = [A.digit 0]

variable {A : Alphabet α base} {n d e : ℕ}

theorem digit_injOn (hd : d < base) (he : e < base) (h : A.digit d = A.digit e) : d = e := by
  have hvalue := A.value_digit d hd
  rw [h, A.value_digit e he] at hvalue
  exact (Option.some.inj hvalue).symm

theorem foldlM_digits {ds : List ℕ} (hds : ∀ d ∈ ds, d < base) :
    (ds.map A.digit).reverse.foldlM (fun n c => (A.value c).map (n * base + ·)) 0 =
      some (Nat.ofDigits base ds) := by
  induction ds with
  | nil => rfl
  | cons d ds ih =>
      have hd := A.value_digit d (hds d List.mem_cons_self)
      rw [List.map_cons, List.reverse_cons, List.foldlM_append,
        ih fun e he => hds e (List.mem_cons_of_mem d he), Nat.ofDigits_cons]
      simp [hd]
      ring

theorem numeral_ne_nil : A.numeral n ≠ [] := by
  unfold numeral
  split
  · simp
  · next hn => simpa using Nat.digits_ne_nil_iff_ne_zero.mpr hn

theorem mem_numeral {c : α} (hbase : 1 < base) (hc : c ∈ A.numeral n) :
    ∃ d < base, A.digit d = c := by
  unfold numeral at hc
  split at hc
  · exact ⟨0, by omega, (List.mem_singleton.mp hc).symm⟩
  · obtain ⟨d, hd, rfl⟩ := List.mem_map.mp (List.mem_reverse.mp hc)
    exact ⟨d, Nat.digits_lt_base hbase hd, rfl⟩

theorem readNat_numeral (hbase : 1 < base) : A.readNat (A.numeral n) = some n := by
  have hread : ∀ s : List α, s ≠ [] →
      A.readNat s = s.foldlM (fun n c => (A.value c).map (n * base + ·)) 0 := by
    intro s hs
    cases s with
    | nil => exact absurd rfl hs
    | cons c s => rfl
  rw [hread _ numeral_ne_nil]
  unfold numeral
  split
  · next hn => simp [hn, A.value_digit 0 (by omega)]
  · rw [foldlM_digits fun d hd => Nat.digits_lt_base hbase hd, Nat.ofDigits_digits]

/-- The first digit of a positive number is not zero. -/
theorem head_numeral (hbase : 1 < base) (h : (A.numeral n).head? = some (A.digit 0)) :
    A.numeral n = [A.digit 0] := by
  unfold numeral at h ⊢
  split
  · rfl
  · next hn =>
      rw [if_neg hn, List.head?_reverse, List.getLast?_map,
        List.getLast?_eq_getLast_of_ne_nil (Nat.digits_ne_nil_iff_ne_zero.mpr hn)] at h
      have hlast := Nat.getLast_digit_ne_zero base hn
      have hlt := Nat.digits_lt_base hbase (List.getLast_mem
        (Nat.digits_ne_nil_iff_ne_zero.mpr hn))
      exact absurd (digit_injOn hlt (by omega) (Option.some.inj h)) hlast

/-- A sign is no digit. -/
theorem head_ne_minus {minus : α} (hbase : 1 < base) (hminus : A.value minus = none) :
    (A.numeral n).head? ≠ some minus := by
  intro h
  obtain ⟨d, hd, rfl⟩ := mem_numeral hbase (List.mem_of_mem_head? h)
  rw [A.value_digit d hd] at hminus
  cases hminus

section

variable [DecidableEq α] {minus : α} {s : List α} {v w : ℤ}

theorem magnitude_numeral (hbase : 1 < base) (hminus : A.value minus = none) :
    magnitude minus (A.numeral n) = A.numeral n := by
  have hhead := head_ne_minus hbase hminus (n := n)
  cases hs : A.numeral n with
  | nil => rfl
  | cons c s =>
      rw [hs] at hhead
      exact if_neg fun hc => hhead (by rw [hc]; rfl)

/-- The numeral of a natural number is canonical. -/
theorem isNumeral_numeral (hbase : 1 < base) (hminus : A.value minus = none) :
    A.IsNumeral minus (A.numeral n) n := by
  have hhead := head_ne_minus hbase hminus (n := n)
  refine ⟨?_, ⟨fun h => absurd h hhead, fun h => absurd h (by omega)⟩, ?_⟩
  · unfold readInt
    rw [if_neg hhead, readNat_numeral hbase]
    rfl
  · rw [magnitude_numeral hbase hminus]
    exact head_numeral hbase

/-- A minus sign in front of a positive number. -/
theorem isNumeral_minus (hbase : 1 < base) (hn : 0 < n) :
    A.IsNumeral minus (minus :: A.numeral n) (-n) := by
  have hmagnitude : magnitude minus (minus :: A.numeral n) = A.numeral n := if_pos rfl
  refine ⟨?_, ⟨fun _ => by omega, fun _ => rfl⟩, ?_⟩
  · unfold readInt
    rw [if_pos List.head?_cons, hmagnitude, readNat_numeral hbase]
    rfl
  · rw [hmagnitude]
    exact head_numeral hbase

theorem IsNumeral.value_eq (hv : A.IsNumeral minus s v) (hw : A.IsNumeral minus s w) : v = w :=
  Option.some.inj (hv.reads.symm.trans hw.reads)

end

end Alphabet

end Vectra.Lib
