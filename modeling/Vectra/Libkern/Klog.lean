import Mathlib.Tactic
import Vectra.Lib.Bytes

/-!
# The formatter of `klog.c`

The format is read through the memory, and the addresses that are read are recorded. The
argument list is a list of 64-bit slots; the bytes that go to the console are collected.
-/

namespace Vectra

open Lib

/-! ## The numbers -/

def chr (b : BitVec 8) : Char := Char.ofNat b.toNat

def byte (c : Char) : BitVec 8 := BitVec.ofNat 8 c.toNat

def text (s : String) : List (BitVec 8) := s.toList.map byte

/-- A digit, with the letter that stands for ten. -/
def digitByte (ten : Char) (digit : ℕ) : BitVec 8 :=
  BitVec.ofNat 8 (if digit < 10 then '0'.toNat + digit else ten.toNat + (digit - 10))

/-- The digits are collected in `buf`, the last one first. -/
def putUnsigned (value base : ℕ) : List (BitVec 8) :=
  if value = 0 then [byte '0'] else ((Nat.digits base value).map (digitByte 'a')).reverse

/-- The parameter is an `int`. -/
def putSigned (value : ℕ) : List (BitVec 8) :=
  if 2 ^ 31 ≤ value % 2 ^ 32 then byte '-' :: putUnsigned (2 ^ 32 - value % 2 ^ 32) 10
  else putUnsigned (value % 2 ^ 32) 10

/-- The case `X`, which has its own loop. -/
def putUpper (value : ℕ) : List (BitVec 8) :=
  if value = 0 then [byte '0'] else ((Nat.digits 16 value).map (digitByte 'A')).reverse

/-- The fuel counts bytes. -/
def uartPuts (m : Bytes) (str : ℕ) : ℕ → Option (List (BitVec 8))
  | 0 => none
  | fuel + 1 =>
      if m str = 0 then some []
      else (uartPuts m (str + 1) fuel).map fun out =>
        (if m str = byte '\n' then [byte '\r', m str] else [m str]) ++ out

/-! ## The formatter -/

/-- `format`, the arguments that are left, what went to the console, and where the format has
been read. -/
structure Printer where
  format : ℕ
  args : List ℕ
  out : List (BitVec 8)
  reads : List ℕ
  deriving DecidableEq

namespace Printer

/-- `*format`. -/
def read (p : Printer) : Printer := { p with reads := p.format :: p.reads }

/-- `format++`. -/
def advance (p : Printer) : Printer := { p with format := p.format + 1 }

def put (p : Printer) (bytes : List (BitVec 8)) : Printer := { p with out := p.out ++ bytes }

/-- `va_arg` on a list that is used up is undefined. -/
def vaArg (p : Printer) (f : ℕ → Option (List (BitVec 8))) : Option Printer :=
  match p.args with
  | [] => none
  | arg :: args => (f arg).map { p with args := args }.put

end Printer

/-- After `%ll`. -/
def longLongDirective (m : Bytes) (p : Printer) : Option Printer :=
  match chr (m p.format) with
  | 'd' => p.read.vaArg fun arg => some (putSigned arg)
  | 'u' => p.read.vaArg fun arg => some (putUnsigned arg 10)
  | 'x' => p.read.vaArg fun arg => some (putUnsigned arg 16)
  | _ => some p.read

/-- After `%l`. -/
def longDirective (m : Bytes) (p : Printer) : Option Printer :=
  match chr (m p.format) with
  | 'd' => p.read.vaArg fun arg => some (putSigned arg)
  | 'u' => p.read.vaArg fun arg => some (putUnsigned arg 10)
  | 'x' => p.read.vaArg fun arg => some (putUnsigned arg 16)
  | 'l' => longLongDirective m p.read.advance
  | _ => some p.read

/-- The switch after `%`. -/
def directive (m : Bytes) (fuel : ℕ) (p : Printer) : Option Printer :=
  match chr (m p.format) with
  | '%' => some (p.read.put [byte '%'])
  | 'c' => p.read.vaArg fun arg => some [BitVec.ofNat 8 arg]
  | 's' => p.read.vaArg fun str => if str = 0 then some (text "(null)") else uartPuts m str fuel
  | 'd' => p.read.vaArg fun arg => some (putSigned arg)
  | 'u' => p.read.vaArg fun arg => some (putUnsigned (arg % 2 ^ 32) 10)
  | 'x' => p.read.vaArg fun arg => some (putUnsigned (arg % 2 ^ 32) 16)
  | 'X' => p.read.vaArg fun arg => some (putUpper (arg % 2 ^ 32))
  | 'p' => p.read.vaArg fun arg => some (text "0x" ++ putUnsigned arg 16)
  | 'l' => longDirective m p.read.advance
  | _ =>
      -- unknown specifiers are preserved
      some (p.read.read.put [byte '%', m p.format])

/-- The fuel counts the rounds of the loop, and the bytes of a string. -/
def klogVprintf (m : Bytes) : ℕ → Printer → Option Printer
  | 0, _ => none
  | fuel + 1, p =>
      if m p.format = 0 then some p.read
      else if chr (m p.format) ≠ '%' then
        klogVprintf m fuel (p.read.read.read.put [m p.format]).advance
      else do
        let p ← directive m fuel p.read.read.advance
        klogVprintf m fuel p.advance

/-! ## Formats -/

/-- How far a directive has been read. -/
inductive Scan
  | text
  | percent
  | long
  | longLong
  deriving DecidableEq

/-- What a directive takes from the argument list. -/
inductive Conversion
  | word
  | string
  deriving DecidableEq

def plainConversion : Char → List Conversion
  | 'c' | 'd' | 'u' | 'x' | 'X' | 'p' => [.word]
  | 's' => [.string]
  | _ => []

def longConversion : Char → List Conversion
  | 'd' | 'u' | 'x' => [.word]
  | _ => []

def Scan.next : Scan → Char → Scan × List Conversion
  | .text, c => (if c = '%' then .percent else .text, [])
  | .percent, c => if c = 'l' then (.long, []) else (.text, plainConversion c)
  | .long, c => if c = 'l' then (.longLong, []) else (.text, longConversion c)
  | .longLong, c => (.text, longConversion c)

def scan : Scan → List (BitVec 8) → Scan
  | s, [] => s
  | s, b :: bs => scan (s.next (chr b)).1 bs

def conversions : Scan → List (BitVec 8) → List Conversion
  | _, [] => []
  | s, b :: bs => (s.next (chr b)).2 ++ conversions (s.next (chr b)).1 bs

/-- The format does not end in a directive. -/
def FormatComplete (bs : List (BitVec 8)) : Prop := scan .text bs = .text

instance (bs : List (BitVec 8)) : Decidable (FormatComplete bs) :=
  inferInstanceAs (Decidable (_ = _))

/-- The bytes at `a`, with the terminator after them. -/
def CString (m : Bytes) (a : ℕ) : List (BitVec 8) → Prop
  | [] => m a = 0
  | b :: bs => m a = b ∧ b ≠ 0 ∧ CString m (a + 1) bs

/-- The list is long enough, and the strings have a terminator. -/
def Supplies (m : Bytes) : List Conversion → List ℕ → Prop
  | [], _ => True
  | _ :: _, [] => False
  | .word :: ks, _ :: args => Supplies m ks args
  | .string :: ks, str :: args => (str = 0 ∨ ∃ bs, CString m str bs) ∧ Supplies m ks args

/-! ## One directive -/

section Directive

variable {m : Bytes} {p q : Printer} {fuel k : ℕ} {a : ℕ} {bs : List (BitVec 8)}

/-- `format` has been advanced by `k`, and only the bytes passed have been read. -/
structure Moved (p q : Printer) (k : ℕ) : Prop where
  format : q.format = p.format + k
  reads : ∀ a ∈ q.reads, a ∈ p.reads ∨ a ≤ p.format + k
  kept : ∀ a ∈ p.reads, a ∈ q.reads

theorem Moved.trans {r : Printer} {j : ℕ} (h : Moved p q k) (g : Moved q r j) :
    Moved p r (k + j) := by
  refine ⟨by rw [g.format, h.format, Nat.add_assoc], fun a ha => ?_, fun a ha =>
    g.kept a (h.kept a ha)⟩
  have hpq := h.format
  rcases g.reads a ha with hq | hle
  · rcases h.reads a hq with hp | hle
    · exact .inl hp
    · exact .inr (by omega)
  · exact .inr (by omega)

theorem moved_read (p : Printer) : Moved p p.read 0 := by
  refine ⟨rfl, fun a ha => ?_, fun a ha => List.mem_cons_of_mem _ ha⟩
  rcases List.mem_cons.mp ha with rfl | ha
  · exact .inr (le_refl _)
  · exact .inl ha

theorem moved_put (p : Printer) (bytes : List (BitVec 8)) : Moved p (p.put bytes) 0 :=
  ⟨rfl, fun _ => .inl, fun _ => id⟩

theorem moved_advance (p : Printer) : Moved p p.advance 1 := ⟨rfl, fun _ => .inl, fun _ => id⟩

theorem moved_vaArg {f : ℕ → Option (List (BitVec 8))} (h : p.vaArg f = some q) : Moved p q 0 := by
  unfold Printer.vaArg at h
  split at h
  · cases h
  · obtain ⟨bytes, _, rfl⟩ := Option.map_eq_some_iff.mp h
    exact ⟨rfl, fun _ => .inl, fun _ => id⟩

theorem moved_longLong (h : longLongDirective m p = some q) : Moved p q 0 := by
  unfold longLongDirective at h
  split at h
  · exact (moved_read p).trans (moved_vaArg h)
  · exact (moved_read p).trans (moved_vaArg h)
  · exact (moved_read p).trans (moved_vaArg h)
  · cases h
    exact moved_read p

/-- The `l`s of the directive at `a`. -/
def longs (m : Bytes) (a : ℕ) : ℕ :=
  if chr (m a) = 'l' then if chr (m (a + 1)) = 'l' then 2 else 1 else 0

theorem moved_long (h : longDirective m p = some q) :
    Moved p q (if chr (m p.format) = 'l' then 1 else 0) := by
  unfold longDirective at h
  split at h
  · rename_i hc
    rw [hc, if_neg (by decide)]
    exact (moved_read p).trans (moved_vaArg h)
  · rename_i hc
    rw [hc, if_neg (by decide)]
    exact (moved_read p).trans (moved_vaArg h)
  · rename_i hc
    rw [hc, if_neg (by decide)]
    exact (moved_read p).trans (moved_vaArg h)
  · rename_i hc
    rw [if_pos hc]
    exact ((moved_read p).trans (moved_advance _)).trans (moved_longLong h)
  · rename_i hc
    cases h
    rw [if_neg hc]
    exact moved_read p

theorem moved_directive (h : directive m fuel p = some q) : Moved p q (longs m p.format) := by
  unfold longs
  by_cases hl : chr (m p.format) = 'l'
  · rw [if_pos hl]
    unfold directive at h
    rw [hl] at h
    have hmoved := ((moved_read p).trans (moved_advance _)).trans (moved_long h)
    change Moved p q (0 + 1 + if chr (m (p.format + 1)) = 'l' then 1 else 0) at hmoved
    split
    · rename_i hll
      rw [if_pos hll] at hmoved
      exact hmoved
    · rename_i hll
      rw [if_neg hll] at hmoved
      exact hmoved
  · rw [if_neg hl]
    unfold directive at h
    split at h
    all_goals try exact (moved_read p).trans (moved_vaArg h)
    · cases h
      exact (moved_read p).trans (moved_put _ _)
    · rename_i hc
      exact absurd hc hl
    · cases h
      exact ((moved_read p).trans (moved_read _)).trans (moved_put _ _)

/-- What the directive at `a` takes from the argument list. -/
def directiveArgs (m : Bytes) (a : ℕ) : List Conversion :=
  if chr (m a) = 'l' then longConversion (chr (m (a + longs m a)))
  else plainConversion (chr (m a))

variable {ks : List Conversion}

theorem vaArg_word {f : ℕ → List (BitVec 8)} (h : Supplies m (.word :: ks) p.args) :
    ∃ q, p.vaArg (fun arg => some (f arg)) = some q ∧ Supplies m ks q.args := by
  unfold Printer.vaArg
  cases hargs : p.args with
  | nil =>
      rw [hargs] at h
      exact h.elim
  | cons arg args =>
      rw [hargs] at h
      exact ⟨_, rfl, h⟩

theorem uartPuts_string {str : ℕ} (h : CString m str bs) :
    ∃ out, ∀ fuel > bs.length, uartPuts m str fuel = some out := by
  induction bs generalizing str with
  | nil =>
      refine ⟨[], fun fuel hfuel => ?_⟩
      obtain ⟨fuel, rfl⟩ := Nat.exists_eq_succ_of_ne_zero (Nat.ne_of_gt hfuel)
      exact if_pos h
  | cons b bs ih =>
      obtain ⟨hb, hne, hrest⟩ := h
      obtain ⟨out, hout⟩ := ih hrest
      refine ⟨(if m str = byte '\n' then [byte '\r', m str] else [m str]) ++ out,
        fun fuel hfuel => ?_⟩
      obtain ⟨fuel, rfl⟩ := Nat.exists_eq_succ_of_ne_zero (Nat.ne_zero_of_lt hfuel)
      rw [uartPuts, if_neg (hb ▸ hne), hout fuel (Nat.lt_of_succ_lt_succ hfuel)]
      rfl

theorem vaArg_string (h : Supplies m (.string :: ks) p.args) :
    ∃ N q, ∀ fuel ≥ N,
      p.vaArg (fun str => if str = 0 then some (text "(null)") else uartPuts m str fuel) =
        some q ∧ Supplies m ks q.args := by
  unfold Printer.vaArg
  cases hargs : p.args with
  | nil =>
      rw [hargs] at h
      exact h.elim
  | cons str args =>
      rw [hargs] at h
      obtain ⟨hstr, hrest⟩ := h
      by_cases hnull : str = 0
      · refine ⟨0, { p with args := args }.put (text "(null)"), fun fuel _ => ?_⟩
        simp only [if_pos hnull]
        exact ⟨rfl, hrest⟩
      · obtain ⟨bs, hbs⟩ := hstr.resolve_left hnull
        obtain ⟨out, hout⟩ := uartPuts_string hbs
        refine ⟨bs.length + 1, { p with args := args }.put out, fun fuel hfuel => ?_⟩
        simp only [if_neg hnull, hout fuel hfuel]
        exact ⟨rfl, hrest⟩

theorem longConversion_other {c : Char} (hd : c ≠ 'd') (hu : c ≠ 'u') (hx : c ≠ 'x') :
    longConversion c = [] := by
  unfold longConversion
  split
  · exact absurd rfl hd
  · exact absurd rfl hu
  · exact absurd rfl hx
  · rfl

theorem longLong_supplied (h : Supplies m (longConversion (chr (m p.format)) ++ ks) p.args) :
    ∃ q, longLongDirective m p = some q ∧ Supplies m ks q.args := by
  unfold longLongDirective
  unfold longConversion at h
  split at h
  · exact vaArg_word h
  · exact vaArg_word h
  · exact vaArg_word h
  · exact ⟨_, rfl, h⟩

theorem long_supplied
    (h : Supplies m (longConversion (chr (m (p.format +
      if chr (m p.format) = 'l' then 1 else 0))) ++ ks) p.args) :
    ∃ q, longDirective m p = some q ∧ Supplies m ks q.args := by
  by_cases hl : chr (m p.format) = 'l'
  · rw [if_pos hl] at h
    unfold longDirective
    rw [hl]
    exact longLong_supplied h
  · rw [if_neg hl, Nat.add_zero] at h
    unfold longDirective
    split
    · rename_i hc
      rw [hc] at h
      exact vaArg_word h
    · rename_i hc
      rw [hc] at h
      exact vaArg_word h
    · rename_i hc
      rw [hc] at h
      exact vaArg_word h
    · rename_i hc
      exact absurd hc hl
    · rename_i hd hu hx _
      rw [longConversion_other hd hu hx] at h
      exact ⟨_, rfl, h⟩

theorem directive_supplied (h : Supplies m (directiveArgs m p.format ++ ks) p.args) :
    ∃ N q, ∀ fuel ≥ N, directive m fuel p = some q ∧ Supplies m ks q.args := by
  unfold directiveArgs longs at h
  by_cases hl : chr (m p.format) = 'l'
  · rw [if_pos hl, if_pos hl] at h
    have hnext : p.read.advance.format +
        (if chr (m p.read.advance.format) = 'l' then 1 else 0) =
          p.format + if chr (m (p.format + 1)) = 'l' then 2 else 1 := by
      change p.format + 1 + (if chr (m (p.format + 1)) = 'l' then 1 else 0) = _
      split <;> omega
    rw [← hnext] at h
    obtain ⟨q, hq, hargs⟩ := long_supplied (p := p.read.advance) h
    refine ⟨0, q, fun fuel _ => ⟨?_, hargs⟩⟩
    unfold directive
    rw [hl]
    exact hq
  · rw [if_neg hl] at h
    have hword : ∀ {f : ℕ → List (BitVec 8)}, Supplies m ([.word] ++ ks) p.args →
        ∃ (N : ℕ) (q : Printer), ∀ fuel ≥ N, p.read.vaArg (fun arg => some (f arg)) = some q ∧
          Supplies m ks q.args := by
      intro f h
      obtain ⟨q, hq⟩ := vaArg_word (p := p.read) h
      exact ⟨0, q, fun _ _ => hq⟩
    unfold directive
    unfold plainConversion at h
    split at h
    all_goals rename_i hc
    all_goals try rw [hc]
    all_goals try exact hword h
    · exact vaArg_string (p := p.read) h
    · -- neither a conversion nor an `l`
      split
      all_goals try contradiction
      all_goals exact ⟨0, _, fun _ _ => ⟨rfl, h⟩⟩

/-- What a directive is in the format: cut off by the terminator, or followed by the rest. -/
inductive Cut (m : Bytes) (a : ℕ) (bs : List (BitVec 8)) : Prop
  | off (length : bs.length = longs m a) (scanned : scan .percent bs ≠ .text)
  | rest (rest : List (BitVec 8)) (string : CString m (a + longs m a + 1) rest)
      (length : rest.length + longs m a + 1 = bs.length)
      (scanned : scan .percent bs = scan .text rest)
      (args : conversions .percent bs = directiveArgs m a ++ conversions .text rest)

theorem chr_zero : chr 0 ≠ 'l' := by decide

theorem cut_of_string (h : CString m a bs) : Cut m a bs := by
  cases bs with
  | nil =>
      refine .off ?_ (by decide)
      unfold longs
      rw [if_neg]
      · rfl
      · rw [show m a = 0 from h]
        exact chr_zero
  | cons b bs =>
      obtain ⟨rfl, -, h⟩ := h
      by_cases hl : chr (m a) = 'l'
      · cases bs with
        | nil =>
            have hone : longs m a = 1 := by
              unfold longs
              rw [if_pos hl, if_neg]
              rw [show m (a + 1) = 0 from h]
              exact chr_zero
            refine .off (by rw [hone]; rfl) ?_
            simp only [scan, Scan.next, hl, if_true]
            decide
        | cons b bs =>
            obtain ⟨rfl, -, h⟩ := h
            by_cases hll : chr (m (a + 1)) = 'l'
            · have htwo : longs m a = 2 := by
                unfold longs
                rw [if_pos hl, if_pos hll]
              cases bs with
              | nil =>
                  refine .off (by rw [htwo]; rfl) ?_
                  simp only [scan, Scan.next, hl, hll, if_true]
                  decide
              | cons b bs =>
                  obtain ⟨rfl, -, h⟩ := h
                  refine .rest bs (by rw [htwo]; exact h) (by rw [htwo]; rfl) ?_ ?_
                  · simp only [scan, Scan.next, hl, hll, if_true]
                  · simp only [conversions, Scan.next, hl, hll, if_true, directiveArgs, htwo,
                      List.nil_append]
            · have hone : longs m a = 1 := by
                unfold longs
                rw [if_pos hl, if_neg hll]
              refine .rest bs (by rw [hone]; exact h) (by rw [hone]; rfl) ?_ ?_
              · simp only [scan, Scan.next, hl, hll, if_true, if_false]
              · simp only [conversions, Scan.next, hl, hll, if_true, if_false, directiveArgs, hone,
                  List.nil_append]
      · have hzero : longs m a = 0 := if_neg hl
        refine .rest bs (by rw [hzero]; exact h) (by rw [hzero]; rfl) ?_ ?_
        · simp only [scan, Scan.next, hl, if_false]
        · simp only [conversions, Scan.next, hl, if_false, directiveArgs]

end Directive

/-! ## The loop -/

section Loop

variable {m : Bytes} {p q : Printer} {bs : List (BitVec 8)}

/-- What has been read stays recorded. -/
theorem klogVprintf_kept {fuel : ℕ} (h : klogVprintf m fuel p = some q) :
    ∀ a ∈ p.reads, a ∈ q.reads := by
  induction fuel generalizing p with
  | zero => cases h
  | succ fuel ih =>
      intro a ha
      rw [klogVprintf] at h
      split at h
      · cases h
        exact List.mem_cons_of_mem _ ha
      · split at h
        · exact ih h a (List.mem_cons_of_mem _ (List.mem_cons_of_mem _ (List.mem_cons_of_mem _ ha)))
        · obtain ⟨r, hr, h⟩ := Option.bind_eq_some_iff.mp h
          exact ih h a ((moved_directive hr).kept a
            (List.mem_cons_of_mem _ (List.mem_cons_of_mem _ ha)))

/-- The byte at `format` is read at once. -/
theorem klogVprintf_reads_format {fuel : ℕ} (h : klogVprintf m fuel p = some q) :
    p.format ∈ q.reads := by
  cases fuel with
  | zero => cases h
  | succ fuel =>
      rw [klogVprintf] at h
      split at h
      · cases h
        exact List.mem_cons_self
      · split at h
        · exact klogVprintf_kept h _ List.mem_cons_self
        · obtain ⟨r, hr, h⟩ := Option.bind_eq_some_iff.mp h
          exact klogVprintf_kept h _ ((moved_directive hr).kept _ List.mem_cons_self)

/-- A format that ends in a directive is read behind its terminator. -/
theorem klogVprintf_cut {fuel : ℕ} (bs : List (BitVec 8)) (hstring : CString m p.format bs)
    (hcut : ¬ FormatComplete bs) (h : klogVprintf m fuel p = some q) :
    p.format + bs.length + 1 ∈ q.reads := by
  induction fuel generalizing p bs with
  | zero => cases h
  | succ fuel ih =>
      cases bs with
      | nil => exact absurd rfl hcut
      | cons b bs =>
          obtain ⟨rfl, hne, hrest⟩ := hstring
          rw [klogVprintf, if_neg hne] at h
          by_cases hpercent : chr (m p.format) = '%'
          · rw [if_neg (not_not.mpr hpercent)] at h
            obtain ⟨r, hr, h⟩ := Option.bind_eq_some_iff.mp h
            have hformat : r.format = p.format + 1 + longs m (p.format + 1) :=
              (moved_directive hr).format
            cases cut_of_string hrest with
            | off length _ =>
                have hread := klogVprintf_reads_format h
                have hend : r.advance.format = p.format + (m p.format :: bs).length + 1 := by
                  change r.format + 1 = p.format + (bs.length + 1) + 1
                  omega
                rwa [hend] at hread
            | rest rest string length scanned _ =>
                have hincomplete : ¬ FormatComplete rest := by
                  intro hok
                  apply hcut
                  unfold FormatComplete
                  simp only [scan, Scan.next, hpercent, if_true]
                  exact scanned.trans hok
                have hread := ih (p := r.advance) rest (by
                  change CString m (r.format + 1) rest
                  rw [hformat]
                  exact string) hincomplete h
                have hend : r.advance.format + rest.length + 1 =
                    p.format + (m p.format :: bs).length + 1 := by
                  change r.format + 1 + rest.length + 1 = p.format + (bs.length + 1) + 1
                  omega
                rwa [hend] at hread
          · rw [if_pos hpercent] at h
            have hincomplete : ¬ FormatComplete bs := by
              intro hok
              apply hcut
              unfold FormatComplete
              simp only [scan, Scan.next, hpercent, if_false]
              exact hok
            have hread := ih (p := (p.read.read.read.put [m p.format]).advance) bs
              hrest hincomplete h
            have hend : (p.read.read.read.put [m p.format]).advance.format + bs.length + 1 =
                p.format + (m p.format :: bs).length + 1 := by
              change p.format + 1 + bs.length + 1 = p.format + (bs.length + 1) + 1
              omega
            rwa [hend] at hread

/-- A complete format is read up to its terminator. -/
theorem klogVprintf_complete (hstring : CString m p.format bs)
    (hargs : Supplies m (conversions .text bs) p.args) (hok : FormatComplete bs) :
    ∃ N q, (∀ fuel ≥ N, klogVprintf m fuel p = some q) ∧
      ∀ a ∈ q.reads, a ∈ p.reads ∨ a ≤ p.format + bs.length := by
  induction hn : bs.length using Nat.strong_induction_on generalizing bs p with
  | _ n ih =>
      cases bs with
      | nil =>
          refine ⟨1, p.read, fun fuel hfuel => ?_, fun a ha => ?_⟩
          · obtain ⟨fuel, rfl⟩ := Nat.exists_eq_succ_of_ne_zero (Nat.ne_zero_of_lt hfuel)
            exact if_pos hstring
          · rcases List.mem_cons.mp ha with rfl | ha
            · exact .inr (Nat.le_add_right _ _)
            · exact .inl ha
      | cons b bs =>
          obtain ⟨rfl, hne, hrest⟩ := hstring
          unfold FormatComplete at hok
          rw [List.length_cons] at hn
          by_cases hpercent : chr (m p.format) = '%'
          · simp only [scan, Scan.next, hpercent, if_true] at hok
            simp only [conversions, Scan.next, hpercent, if_true, List.nil_append] at hargs
            cases cut_of_string hrest with
            | off _ scanned => exact absurd hok scanned
            | rest rest string length scanned args =>
                rw [args] at hargs
                rw [scanned] at hok
                obtain ⟨N, r, hdirective⟩ := directive_supplied (p := p.read.read.advance) hargs
                have hmoved := (((moved_read p).trans (moved_read _)).trans (moved_advance _)).trans
                  ((moved_directive (hdirective N (le_refl N)).1).trans (moved_advance _))
                have hformat : r.advance.format = p.format + 1 + longs m (p.format + 1) + 1 :=
                  congrArg (· + 1) (moved_directive (hdirective N (le_refl N)).1).format
                obtain ⟨M, q, hloop, hreads⟩ := ih rest.length (by omega) (p := r.advance)
                  (by rw [hformat]; exact string) (hdirective N (le_refl N)).2 hok rfl
                refine ⟨max N M + 1, q, fun fuel hfuel => ?_, fun a ha => ?_⟩
                · obtain ⟨fuel, rfl⟩ := Nat.exists_eq_succ_of_ne_zero (Nat.ne_zero_of_lt hfuel)
                  rw [klogVprintf, if_neg hne, if_neg (not_not.mpr hpercent),
                    (hdirective fuel (by omega)).1]
                  exact hloop fuel (by omega)
                · rcases hreads a ha with hr | hle
                  · rcases hmoved.reads a hr with hp | hle
                    · exact .inl hp
                    · change a ≤ p.format + (0 + 0 + 1 + (longs m (p.format + 1) + 1)) at hle
                      exact .inr (by omega)
                  · exact .inr (by omega)
          · simp only [scan, Scan.next, hpercent, if_false] at hok
            simp only [conversions, Scan.next, hpercent, if_false, List.nil_append] at hargs
            have hmoved := ((((moved_read p).trans (moved_read _)).trans (moved_read _)).trans
              (moved_put _ [m p.format])).trans (moved_advance _)
            obtain ⟨N, q, hloop, hreads⟩ := ih bs.length (by omega)
              (p := (p.read.read.read.put [m p.format]).advance) hrest hargs hok rfl
            refine ⟨N + 1, q, fun fuel hfuel => ?_, fun a ha => ?_⟩
            · obtain ⟨fuel, rfl⟩ := Nat.exists_eq_succ_of_ne_zero (Nat.ne_zero_of_lt hfuel)
              rw [klogVprintf, if_neg hne, if_pos hpercent, hloop fuel (by omega)]
            · rcases hreads a ha with hr | hle
              · rcases hmoved.reads a hr with hp | hle
                · exact .inl hp
                · exact .inr (by omega)
              · change a ≤ p.format + 1 + bs.length at hle
                exact .inr (by omega)

end Loop

/-! ## The whole call -/

/-- The call ends, and the format is not read behind its terminator. -/
def StaysInFormat (m : Bytes) (format : ℕ) (bs : List (BitVec 8)) (args : List ℕ) : Prop :=
  ∃ fuel q, klogVprintf m fuel ⟨format, args, [], []⟩ = some q ∧
    ∀ a ∈ q.reads, a ≤ format + bs.length

/-- With enough arguments, exactly the formats that do not end in a directive are read up to
their terminator only. -/
theorem klogVprintf_stays_iff {m : Bytes} {format : ℕ} {bs : List (BitVec 8)} {args : List ℕ}
    (hstring : CString m format bs) (hargs : Supplies m (conversions .text bs) args) :
    StaysInFormat m format bs args ↔ FormatComplete bs := by
  constructor
  · rintro ⟨fuel, q, hq, hreads⟩
    by_contra hcut
    have hle := hreads _ (klogVprintf_cut _ hstring hcut hq)
    change format + bs.length + 1 ≤ format + bs.length at hle
    omega
  · intro hok
    obtain ⟨N, q, hq, hreads⟩ := klogVprintf_complete (p := ⟨format, args, [], []⟩) hstring hargs
      hok
    exact ⟨N, q, hq N (le_refl N), fun a ha => (hreads a ha).resolve_left (by simp)⟩

/-- A memory that starts with a string. -/
def stringAtZero (s : String) : Bytes := fun a => (text s).getD a 0

theorem klogVprintf_stays_iff_percents :
    StaysInFormat (stringAtZero "%d%%") 0 (text "%d%%") [7] ↔ FormatComplete (text "%d%%") :=
  klogVprintf_stays_iff
    ⟨rfl, by decide, rfl, by decide, rfl, by decide, rfl, by decide, rfl⟩ trivial

/-- After the `%` at its end, the format `"9%"` is read on behind its terminator. -/
theorem klogVprintf_reads_behind :
    CString (stringAtZero "9%") 0 (text "9%") ∧
      Supplies (stringAtZero "9%") (conversions .text (text "9%")) [] ∧
      ¬ StaysInFormat (stringAtZero "9%") 0 (text "9%") [] := by
  have hstring : CString (stringAtZero "9%") 0 (text "9%") :=
    ⟨rfl, by decide, rfl, by decide, rfl⟩
  refine ⟨hstring, trivial, ?_⟩
  rintro ⟨fuel, q, hq, hreads⟩
  have hpast := klogVprintf_cut (text "9%") hstring (by decide) hq
  exact absurd (hreads _ hpast) (by decide)

end Vectra
