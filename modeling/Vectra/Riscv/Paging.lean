import Vectra.Mm.Init

/-!
# Page tables of `paging.c`

Three levels of 512 entries each. The tables are frames of the allocator,
addressed physically; the root table is a static array of the kernel image.
-/

namespace Vectra

open Lib

/-! ## Entries and indices -/

def pteV : ℕ := 1

def pteR : ℕ := 2

def pteW : ℕ := 4

def pteX : ℕ := 8

def pteA : ℕ := 64

def pteD : ℕ := 128

def pageKernelExec : ℕ := pteV ||| pteR ||| pteX ||| pteA ||| pteD

def pageKernelData : ℕ := pteV ||| pteR ||| pteW ||| pteA ||| pteD

def pageTableNode : ℕ := pteV

def paToPtePpn (pa : ℕ) : ℕ := ((pa >>> 12) <<< 10) % 2 ^ 64

def pteToPa (pte : ℕ) : ℕ := ((pte >>> 10) <<< 12) % 2 ^ 64

def vpn2 (va : ℕ) : ℕ := (va >>> 30) &&& 0x1FF

def vpn1 (va : ℕ) : ℕ := (va >>> 21) &&& 0x1FF

def vpn0 (va : ℕ) : ℕ := (va >>> 12) &&& 0x1FF

/-! ## The functions -/

/-- One level of `vmm_walk`: follow the entry at `pte`, or hang a zeroed
frame below it. The result is `none` on a panic, and `some none` for the
null pointer. -/
def vmmWalkLevel (p : Pmm) (m : Bytes) (pte : ℕ) (alloc : Bool) :
    Option (Option ℕ × Pmm × Bytes) :=
  if readLE m pte 8 &&& pteV = 0 then
    if alloc then
      match pmmAllocFrame p with
      | none => none
      | some (framePa, p') =>
          if framePa = 0 then some (none, p', m)
          else some (some framePa, p',
            writeLE (fill m framePa 0#8 pageSize) pte 8 (paToPtePpn framePa ||| pageTableNode))
    else some (none, p, m)
  else some (some (pteToPa (readLE m pte 8)), p, m)

def vmmWalk (p : Pmm) (m : Bytes) (pageTable va : ℕ) (alloc : Bool) :
    Option (Option ℕ × Pmm × Bytes) :=
  match vmmWalkLevel p m (pageTable + 8 * vpn2 va) alloc with
  | none => none
  | some (none, p, m) => some (none, p, m)
  | some (some l1Table, p, m) =>
      match vmmWalkLevel p m (l1Table + 8 * vpn1 va) alloc with
      | none => none
      | some (none, p, m) => some (none, p, m)
      | some (some l0Table, p, m) => some (some (l0Table + 8 * vpn0 va), p, m)

def vmmVirtToPhys (p : Pmm) (m : Bytes) (pageTable va : ℕ) : ℕ :=
  match vmmWalk p m pageTable va false with
  | some (some pte, _, _) =>
      if readLE m pte 8 &&& pteV = 0 then 0 else pteToPa (readLE m pte 8) ||| (va &&& 0xFFF)
  | _ => 0

def vmmMapPage (p : Pmm) (m : Bytes) (pageTable va pa flags : ℕ) :
    Option (Bool × Pmm × Bytes) :=
  if va % pageSize ≠ 0 ∨ pa % pageSize ≠ 0 then some (false, p, m)
  else
    match vmmWalk p m pageTable va true with
    | none => none
    | some (none, p, m) => some (false, p, m)
    | some (some pte, p, m) =>
        some (true, p, writeLE m pte 8 (paToPtePpn pa ||| pteV ||| flags))

/-- How a part of the kernel ends: it returns, it halts in a panic, or it is still running
when its fuel is used up. -/
inductive Outcome (α : Type)
  | returned (a : α)
  | panicked
  | running

def Outcome.bind {α β : Type} (x : Outcome α) (f : α → Outcome β) : Outcome β :=
  match x with
  | .returned a => f a
  | .panicked => .panicked
  | .running => .running

/-- A part that returns or panics. -/
def Outcome.ofOption {α : Type} : Option α → Outcome α
  | some a => .returned a
  | none => .panicked

/-- The result of a part that returns. -/
def Outcome.result {α : Type} : Outcome α → Option α
  | .returned a => some a
  | _ => none

/-- A mapping loop of `vmm_init`: `for (addr; addr < stop; addr += PAGE_SIZE)`,
with a panic when a page cannot be mapped. The fuel counts iterations. -/
def mapLoop (kernelPageTable flags stop : ℕ) (p : Pmm) (m : Bytes) (addr : ℕ) :
    ℕ → Outcome (Pmm × Bytes)
  | 0 => .running
  | n + 1 =>
      if addr < stop then
        match vmmMapPage p m kernelPageTable addr addr flags with
        | some (true, p, m) =>
            mapLoop kernelPageTable flags stop p m ((addr + pageSize) % 2 ^ 64) n
        | _ => .panicked
      else .returned (p, m)

/-- `vmm_init`; each loop may take `n` iterations. -/
def vmmInit (info : BootInfo) (kernelPageTable : ℕ) (p : Pmm) (m : Bytes) (n : ℕ) :
    Outcome (Pmm × Bytes) :=
  (mapLoop kernelPageTable pageKernelExec info.kernelReadonlyEnd p
    (fill m kernelPageTable 0#8 pageSize) info.kernelImageStart n).bind fun (p, m) =>
  (mapLoop kernelPageTable pageKernelData ((info.machineRamBase + info.machineRamTotal) % 2 ^ 64)
    p m (alignUp info.kernelReadonlyEnd pageSize) n).bind fun (p, m) =>
  mapLoop kernelPageTable (pteR ||| pteW) 0x10002000 p m 0x10000000 n

theorem Outcome.bind_eq_returned {α β : Type} {x : Outcome α} {f : α → Outcome β} {b : β} :
    x.bind f = .returned b ↔ ∃ a, x = .returned a ∧ f a = .returned b := by
  cases x with
  | returned a => exact ⟨fun h => ⟨a, rfl, h⟩, fun ⟨_, ha, hb⟩ => by cases ha; exact hb⟩
  | panicked => exact ⟨nofun, fun ⟨_, ha, _⟩ => nomatch ha⟩
  | running => exact ⟨nofun, fun ⟨_, ha, _⟩ => nomatch ha⟩

theorem Outcome.ofOption_eq_returned {α : Type} {x : Option α} {a : α} :
    Outcome.ofOption x = .returned a ↔ x = some a := by
  cases x <;> simp [Outcome.ofOption]

theorem Outcome.result_eq_some {α : Type} {x : Outcome α} {a : α} :
    x.result = some a ↔ x = .returned a := by
  cases x <;> simp [Outcome.result]

/-- The ways a mapping loop returns: it is done, or it has mapped a page and goes on behind it. -/
theorem mapLoop_cases {root flags stop addr n : ℕ} {p p' : Pmm} {m m' : Bytes}
    (hs : mapLoop root flags stop p m addr n = .returned (p', m')) :
    (stop ≤ addr ∧ p' = p ∧ m' = m) ∨
      ∃ k q m₁, n = k + 1 ∧ addr < stop ∧ vmmMapPage p m root addr addr flags = some (true, q, m₁) ∧
        mapLoop root flags stop q m₁ ((addr + pageSize) % 2 ^ 64) k = .returned (p', m') := by
  cases n with
  | zero => cases hs
  | succ k =>
      unfold mapLoop at hs
      split at hs
      · rename_i hstop
        cases hmap : vmmMapPage p m root addr addr flags with
        | none => simp [hmap] at hs
        | some r =>
            obtain ⟨ok, q, m₁⟩ := r
            cases ok with
            | false => simp [hmap] at hs
            | true =>
                simp only [hmap] at hs
                exact Or.inr ⟨k, q, m₁, rfl, hstop, rfl, hs⟩
      · rename_i hstop
        cases hs
        exact Or.inl ⟨Nat.le_of_not_lt hstop, rfl, rfl⟩

/-! ## Arithmetic of entries -/

section Entries

variable {pa va flags : ℕ}

theorem vpn2_eq (va : ℕ) : vpn2 va = va / 2 ^ 30 % 512 := by
  unfold vpn2
  rw [Nat.shiftRight_eq_div_pow]
  exact Nat.and_two_pow_sub_one_eq_mod _ 9

theorem vpn1_eq (va : ℕ) : vpn1 va = va / 2 ^ 21 % 512 := by
  unfold vpn1
  rw [Nat.shiftRight_eq_div_pow]
  exact Nat.and_two_pow_sub_one_eq_mod _ 9

theorem vpn0_eq (va : ℕ) : vpn0 va = va / 2 ^ 12 % 512 := by
  unfold vpn0
  rw [Nat.shiftRight_eq_div_pow]
  exact Nat.and_two_pow_sub_one_eq_mod _ 9

theorem vpn_lt (va : ℕ) : vpn2 va < 512 ∧ vpn1 va < 512 ∧ vpn0 va < 512 := by
  rw [vpn2_eq, vpn1_eq, vpn0_eq]
  omega

theorem paToPtePpn_eq (h : pa < 2 ^ 64) : paToPtePpn pa = pa / 4096 * 1024 := by
  unfold paToPtePpn
  rw [Nat.shiftRight_eq_div_pow, Nat.shiftLeft_eq]
  omega

/-- An entry with its flag bits. -/
theorem entry_eq (h : pa < 2 ^ 64) (hf : flags < 1024) :
    paToPtePpn pa ||| flags = pa / 4096 * 1024 + flags := by
  rw [paToPtePpn_eq h, Nat.mul_comm, show (1024 : ℕ) = 2 ^ 10 from rfl,
    Nat.two_pow_add_eq_or_of_lt (by omega)]

theorem pteToPa_entry (h : pa < 2 ^ 64) (halign : pa % 4096 = 0) (hf : flags < 1024) :
    pteToPa (paToPtePpn pa ||| flags) = pa := by
  rw [entry_eq h hf]
  unfold pteToPa
  rw [Nat.shiftRight_eq_div_pow, Nat.shiftLeft_eq]
  omega

theorem valid_iff (pte : ℕ) : pte &&& pteV = 0 ↔ pte % 2 = 0 := by
  unfold pteV
  rw [Nat.and_one_is_mod]

end Entries

end Vectra
