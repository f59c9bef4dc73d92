import Mathlib.Tactic

/-!
# Records written one after another

A record is written as fixed text, fields that end at a stop value, and a tag from a finite
list. What reads one record back in front of any rest reads a whole sequence back.
-/

namespace Vectra.Lib

variable {α β τ : Type*} [DecidableEq β]

/-- The rest behind a fixed text. -/
def expect : List β → List β → Option (List β)
  | [], s => some s
  | _ :: _, [] => none
  | p :: ps, b :: s => if p = b then expect ps s else none

@[simp] theorem expect_append (p s : List β) : expect p (p ++ s) = some s := by
  induction p with
  | nil => rfl
  | cons p ps ih => rw [List.cons_append, expect, if_pos rfl, ih]

/-- Two texts that differ in a place that both have. -/
def differ : List β → List β → Bool
  | p :: ps, q :: qs => p ≠ q || differ ps qs
  | _, _ => false

theorem expect_of_differ {p q : List β} (h : differ p q = true) (s : List β) :
    expect p (q ++ s) = none := by
  induction p generalizing q with
  | nil => cases h
  | cons p ps ih =>
      cases q with
      | nil => cases h
      | cons b q =>
          rw [List.cons_append, expect]
          by_cases heq : p = b
          · rw [if_pos heq]
            refine ih ?_
            simpa [differ, heq] using h
          · exact if_neg heq

/-- The tag whose text stands in front, and the rest. -/
def readTag : List (τ × List β) → List β → Option (τ × List β)
  | [], _ => none
  | u :: us, s =>
      match expect u.2 s with
      | some rest => some (u.1, rest)
      | none => readTag us s

theorem readTag_append {tags : List (τ × List β)} {t : τ} {p : List β} (hmem : (t, p) ∈ tags)
    (hdiffer : ∀ u ∈ tags, u = (t, p) ∨ differ u.2 p = true) (s : List β) :
    readTag tags (p ++ s) = some (t, s) := by
  induction tags with
  | nil => cases hmem
  | cons u us ih =>
      rw [readTag]
      rcases hdiffer u List.mem_cons_self with rfl | hu
      · simp only [expect_append]
      · rw [expect_of_differ hu]
        rcases List.mem_cons.mp hmem with rfl | hmem
        · rw [← List.append_nil p] at hu
          have hself := expect_of_differ hu []
          rw [List.append_nil, expect_append] at hself
          cases hself
        · exact ih hmem fun v hv => hdiffer v (List.mem_cons_of_mem u hv)

/-- A field up to its stop value. -/
def readField (stop : β) (s : List β) : List β × List β := s.span (· ≠ stop)

theorem readField_append {stop : β} {f : List β} (hf : stop ∉ f) (s : List β) :
    readField stop (f ++ stop :: s) = (f, stop :: s) := by
  have hall : ∀ b ∈ f, decide (b ≠ stop) = true := fun b hb =>
    decide_eq_true fun heq => hf (heq ▸ hb)
  unfold readField
  rw [List.span_eq_takeWhile_dropWhile, List.takeWhile_append_of_pos hall,
    List.dropWhile_append_of_pos hall]
  simp

omit [DecidableEq β] in
theorem length_le_flatMap {write : α → List β} {as : List α} (h : ∀ a ∈ as, write a ≠ []) :
    as.length ≤ (as.flatMap write).length := by
  induction as with
  | nil => exact Nat.zero_le _
  | cons a as ih =>
      have ha := List.length_pos_of_ne_nil (h a List.mem_cons_self)
      have hrest := ih fun b hb => h b (List.mem_cons_of_mem a hb)
      rw [List.flatMap_cons, List.length_append, List.length_cons]
      omega

/-- Records up to the end. The fuel counts records. -/
def readAll (read : List β → Option (α × List β)) : ℕ → List β → Option (List α)
  | _, [] => some []
  | 0, _ :: _ => none
  | fuel + 1, b :: s =>
      (read (b :: s)).bind fun r => (readAll read fuel r.2).map (r.1 :: ·)

omit [DecidableEq β] in
theorem readAll_flatMap {read : List β → Option (α × List β)} {write : α → List β}
    {as : List α} {fuel : ℕ} (h : ∀ a ∈ as, ∀ s, read (write a ++ s) = some (a, s))
    (hne : ∀ a ∈ as, write a ≠ []) (hfuel : as.length ≤ fuel) :
    readAll read fuel (as.flatMap write) = some as := by
  induction as generalizing fuel with
  | nil =>
      cases fuel with
      | zero => rfl
      | succ fuel => rfl
  | cons a as ih =>
      obtain ⟨fuel, rfl⟩ := Nat.exists_eq_add_of_lt (Nat.lt_of_lt_of_le (Nat.zero_lt_succ _) hfuel)
      rw [Nat.zero_add] at hfuel ⊢
      have hread := h a List.mem_cons_self (as.flatMap write)
      have hrest := ih (fun b hb => h b (List.mem_cons_of_mem a hb))
        (fun b hb => hne b (List.mem_cons_of_mem a hb)) (Nat.le_of_succ_le_succ hfuel)
      rw [List.flatMap_cons]
      cases hwrite : write a with
      | nil => exact absurd hwrite (hne a List.mem_cons_self)
      | cons b bs =>
          rw [hwrite, List.cons_append] at hread
          rw [List.cons_append, readAll, hread]
          simp only [Option.bind_some, hrest, Option.map_some]

end Vectra.Lib
