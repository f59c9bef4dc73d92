import Vectra.Libkern.Numerals

/-!
# The output of a format

A format is cut into fragments: literal bytes, `%%`, known directives, and unknown ones with
their `l`s. The reference output is what the fragments put out one after another, unknown
directives as they stand in the format. The loop of `klog_vprintf` puts out the same fragments
except the unknown directives behind an `l`.
-/

namespace Vectra

open Lib

/-! ## Fragments -/

inductive Directive
  | char
  | string
  | pointer
  | int (dir : IntDirective)
  deriving DecidableEq

def Directive.text : Directive → List (BitVec 8)
  | .char => [byte '%', byte 'c']
  | .string => [byte '%', byte 's']
  | .pointer => [byte '%', byte 'p']
  | .int dir => dir.text

inductive Fragment
  | literal (b : BitVec 8)
  | percent
  | known (k : Directive)
  | unknown (longs : ℕ) (b : BitVec 8)
  deriving DecidableEq

/-- The fragment as it stands in the format. -/
def Fragment.text : Fragment → List (BitVec 8)
  | .literal b => [b]
  | .percent => [byte '%', byte '%']
  | .known k => k.text
  | .unknown longs b => byte '%' :: (List.replicate longs (byte 'l') ++ [b])

def plainFragment (b : BitVec 8) : Fragment :=
  match chr b with
  | '%' => .percent
  | 'c' => .known .char
  | 's' => .known .string
  | 'd' => .known (.int .d)
  | 'u' => .known (.int .u)
  | 'x' => .known (.int .x)
  | 'X' => .known (.int .X)
  | 'p' => .known .pointer
  | _ => .unknown 0 b

def longFragment (b : BitVec 8) : Fragment :=
  match chr b with
  | 'd' => .known (.int .ld)
  | 'u' => .known (.int .lu)
  | 'x' => .known (.int .lx)
  | _ => .unknown 1 b

def longLongFragment (b : BitVec 8) : Fragment :=
  match chr b with
  | 'd' => .known (.int .lld)
  | 'u' => .known (.int .llu)
  | 'x' => .known (.int .llx)
  | _ => .unknown 2 b

section Other

variable {b : BitVec 8}

theorem plainFragment_other (hpercent : chr b ≠ '%') (hchar : chr b ≠ 'c') (hstring : chr b ≠ 's')
    (hd : chr b ≠ 'd') (hu : chr b ≠ 'u') (hx : chr b ≠ 'x') (hX : chr b ≠ 'X')
    (hp : chr b ≠ 'p') : plainFragment b = .unknown 0 b := by
  unfold plainFragment
  split
  case h_9 => rfl
  all_goals contradiction

theorem longFragment_other (hd : chr b ≠ 'd') (hu : chr b ≠ 'u') (hx : chr b ≠ 'x') :
    longFragment b = .unknown 1 b := by
  unfold longFragment
  split
  case h_4 => rfl
  all_goals contradiction

theorem longLongFragment_other (hd : chr b ≠ 'd') (hu : chr b ≠ 'u') (hx : chr b ≠ 'x') :
    longLongFragment b = .unknown 2 b := by
  unfold longLongFragment
  split
  case h_4 => rfl
  all_goals contradiction

end Other

/-- The fragment that the next byte completes. -/
def Scan.fragment : Scan → BitVec 8 → List Fragment
  | .text, b => if chr b = '%' then [] else [.literal b]
  | .percent, b => if chr b = 'l' then [] else [plainFragment b]
  | .long, b => if chr b = 'l' then [] else [longFragment b]
  | .longLong, b => [longLongFragment b]

def fragments : Scan → List (BitVec 8) → List Fragment
  | _, [] => []
  | s, b :: bs => s.fragment b ++ fragments (s.next (chr b)).1 bs

/-! ## The reference output -/

/-- A string as it goes to the console. -/
def crlf (bs : List (BitVec 8)) : List (BitVec 8) :=
  bs.flatMap fun b => if b = byte '\n' then [byte '\r', b] else [b]

/-- What a directive makes of its argument. -/
def Directive.Shows (m : Bytes) (arg : ℕ) (s : List (BitVec 8)) : Directive → Prop
  | .char => s = [BitVec.ofNat 8 arg]
  | .string => if arg = 0 then s = Vectra.text "(null)" else ∃ bs, CString m arg bs ∧ s = crlf bs
  | .pointer => s = Vectra.text "0x" ++ putUnsigned arg 16
  | .int dir => s = dir.emits arg

/-- What a fragment puts out, and the arguments it leaves. -/
inductive Fragment.Shows (m : Bytes) : Fragment → List ℕ → List (BitVec 8) → List ℕ → Prop
  | literal (b : BitVec 8) (args : List ℕ) : Shows m (.literal b) args [b] args
  | percent (args : List ℕ) : Shows m .percent args [byte '%'] args
  | known (k : Directive) (arg : ℕ) (args : List ℕ) (s : List (BitVec 8)) (h : k.Shows m arg s) :
      Shows m (.known k) (arg :: args) s args
  | unknown (longs : ℕ) (b : BitVec 8) (args : List ℕ) :
      Shows m (.unknown longs b) args (Fragment.unknown longs b).text args

/-- The concatenation of what the fragments put out. -/
inductive ShowsAll (m : Bytes) : List Fragment → List ℕ → List (BitVec 8) → Prop
  | nil (args : List ℕ) : ShowsAll m [] args []
  | cons {p : Fragment} {ps : List Fragment} {args args' : List ℕ} {s out : List (BitVec 8)}
      (head : p.Shows m args s args') (tail : ShowsAll m ps args' out) :
      ShowsAll m (p :: ps) args (s ++ out)

/-- The unknown directives with an `l`. -/
def Fragment.dropped : Fragment → Bool
  | .unknown longs _ => longs ≠ 0
  | _ => false

/-! ## The fragments are the format -/

section Fragments

variable {bs : List (BitVec 8)} {b : BitVec 8} {sc : Scan}

/-- What has been scanned of a directive. -/
def Scan.seen : Scan → List (BitVec 8)
  | .text => []
  | .percent => [byte '%']
  | .long => [byte '%', byte 'l']
  | .longLong => [byte '%', byte 'l', byte 'l']

theorem byte_of_chr {c : Char} (h : chr b = c) : b = byte c := by
  have hround : ∀ b, byte (chr b) = b := by decide
  rw [← h, hround]

theorem plainFragment_text : (plainFragment b).text = [byte '%', b] := by
  unfold plainFragment
  split
  case h_9 => rfl
  all_goals
    rename_i hc
    rw [byte_of_chr hc]
    rfl

theorem longFragment_text : (longFragment b).text = [byte '%', byte 'l', b] := by
  unfold longFragment
  split
  case h_4 => rfl
  all_goals
    rename_i hc
    rw [byte_of_chr hc]
    rfl

theorem longLongFragment_text : (longLongFragment b).text = [byte '%', byte 'l', byte 'l', b] := by
  unfold longLongFragment
  split
  case h_4 => rfl
  all_goals
    rename_i hc
    rw [byte_of_chr hc]
    rfl

theorem fragment_text : (sc.fragment b).flatMap Fragment.text ++ (sc.next (chr b)).1.seen =
    sc.seen ++ [b] := by
  cases sc with
  | text =>
      by_cases hb : chr b = '%'
      · rw [byte_of_chr hb]
        rfl
      · simp [Scan.fragment, Scan.next, hb, Scan.seen, Fragment.text]
  | percent =>
      by_cases hb : chr b = 'l'
      · rw [byte_of_chr hb]
        rfl
      · simp [Scan.fragment, Scan.next, hb, Scan.seen, plainFragment_text]
  | long =>
      by_cases hb : chr b = 'l'
      · rw [byte_of_chr hb]
        rfl
      · simp [Scan.fragment, Scan.next, hb, Scan.seen, longFragment_text]
  | longLong => simp [Scan.fragment, Scan.next, Scan.seen, longLongFragment_text]

/-- No byte of a complete format is lost in its fragments. -/
theorem fragments_text (h : scan sc bs = .text) :
    (fragments sc bs).flatMap Fragment.text = sc.seen ++ bs := by
  induction bs generalizing sc with
  | nil =>
      have htext : sc = .text := h
      rw [htext]
      rfl
  | cons b bs ih =>
      rw [fragments, List.flatMap_append, ih h, ← List.append_assoc, fragment_text,
        List.append_assoc, List.singleton_append]

end Fragments

/-! ## What the loop puts out -/

section Code

variable {m : Bytes} {p q : Printer} {bs s : List (BitVec 8)} {fuel str a : ℕ} {sc : Scan}

/-- A fragment as the code puts it out, where `s` is its reference output. -/
def Fragment.put (f : Fragment) (s : List (BitVec 8)) : List (BitVec 8) :=
  if f.dropped then [] else s

theorem vaArg_some {f : ℕ → Option (List (BitVec 8))} (h : p.vaArg f = some q) :
    ∃ arg args s, p.args = arg :: args ∧ f arg = some s ∧ q.args = args ∧ q.out = p.out ++ s := by
  unfold Printer.vaArg at h
  split at h
  · cases h
  · next arg args hargs =>
      obtain ⟨s, hs, rfl⟩ := Option.map_eq_some_iff.mp h
      exact ⟨arg, args, s, hargs, hs, rfl, rfl⟩

theorem uartPuts_some (h : uartPuts m str fuel = some s) :
    ∃ bs, CString m str bs ∧ s = crlf bs := by
  induction fuel generalizing str s with
  | zero => cases h
  | succ fuel ih =>
      rw [uartPuts] at h
      by_cases hend : m str = 0
      · rw [if_pos hend] at h
        exact ⟨[], hend, (Option.some.inj h).symm⟩
      · rw [if_neg hend] at h
        obtain ⟨out, hout, rfl⟩ := Option.map_eq_some_iff.mp h
        obtain ⟨bs, hbs, rfl⟩ := ih hout
        exact ⟨m str :: bs, ⟨rfl, hend, hbs⟩, rfl⟩

/-- A known directive. -/
theorem known_shows {f : Fragment} {k : Directive} {g : ℕ → Option (List (BitVec 8))}
    (hf : f = .known k) (h : p.read.vaArg g = some q)
    (hk : ∀ arg s, g arg = some s → k.Shows m arg s) :
    ∃ s, f.Shows m p.args s q.args ∧ q.out = p.out ++ f.put s := by
  obtain ⟨arg, args, s, hargs, hs, hrest, hout⟩ := vaArg_some h
  have hargs' : p.args = arg :: args := hargs
  rw [hargs', hrest, hf]
  exact ⟨s, .known k arg args s (hk arg s hs), hout⟩

/-- A known directive whose output does not depend on the memory. -/
theorem word_shows {f : Fragment} {k : Directive} {g : ℕ → List (BitVec 8)} (hf : f = .known k)
    (h : p.read.vaArg (fun arg => some (g arg)) = some q) (hk : ∀ arg, k.Shows m arg (g arg)) :
    ∃ s, f.Shows m p.args s q.args ∧ q.out = p.out ++ f.put s := by
  apply known_shows hf h
  intro arg s hs
  rw [← Option.some.inj hs]
  exact hk arg

/-- An unknown directive behind an `l` puts out nothing. -/
theorem dropped_shows {longs : ℕ} {b : BitVec 8} (h : some p.read = some q) :
    ∃ s, (Fragment.unknown (longs + 1) b).Shows m p.args s q.args ∧
      q.out = p.out ++ (Fragment.unknown (longs + 1) b).put s := by
  cases h
  exact ⟨_, .unknown _ _ _, (List.append_nil _).symm⟩

theorem longLong_shows (h : longLongDirective m p = some q) :
    ∃ s, (longLongFragment (m p.format)).Shows m p.args s q.args ∧
      q.out = p.out ++ (longLongFragment (m p.format)).put s := by
  unfold longLongDirective at h
  split at h
  · rename_i hc
    exact word_shows (k := .int .lld) (by rw [longLongFragment, hc]; rfl) h fun _ => rfl
  · rename_i hc
    exact word_shows (k := .int .llu) (by rw [longLongFragment, hc]; rfl) h fun _ => rfl
  · rename_i hc
    exact word_shows (k := .int .llx) (by rw [longLongFragment, hc]; rfl) h fun _ => rfl
  · rename_i hd hu hx
    rw [longLongFragment_other hd hu hx]
    exact dropped_shows h

/-- The fragment of the directive at `a`. -/
def directiveFragment (m : Bytes) (a : ℕ) : Fragment :=
  if chr (m a) = 'l' then
    if chr (m (a + 1)) = 'l' then longLongFragment (m (a + 2)) else longFragment (m (a + 1))
  else plainFragment (m a)

theorem long_shows (h : longDirective m p = some q) :
    ∃ s, (if chr (m p.format) = 'l' then longLongFragment (m (p.format + 1))
        else longFragment (m p.format)).Shows m p.args s q.args ∧
      q.out = p.out ++ (if chr (m p.format) = 'l' then longLongFragment (m (p.format + 1))
        else longFragment (m p.format)).put s := by
  unfold longDirective at h
  split at h
  · rename_i hc
    rw [if_neg (by rw [hc]; decide)]
    exact word_shows (k := .int .ld) (by rw [longFragment, hc]; rfl) h fun _ => rfl
  · rename_i hc
    rw [if_neg (by rw [hc]; decide)]
    exact word_shows (k := .int .lu) (by rw [longFragment, hc]; rfl) h fun _ => rfl
  · rename_i hc
    rw [if_neg (by rw [hc]; decide)]
    exact word_shows (k := .int .lx) (by rw [longFragment, hc]; rfl) h fun _ => rfl
  · rename_i hc
    rw [if_pos hc]
    exact longLong_shows h
  · rename_i hd hu hx hl
    rw [if_neg hl, longFragment_other hd hu hx]
    exact dropped_shows h

theorem string_shows {f : Fragment} (hf : f = .known .string)
    (h : p.read.vaArg (fun str => if str = 0 then some (text "(null)") else uartPuts m str fuel) =
      some q) : ∃ s, f.Shows m p.args s q.args ∧ q.out = p.out ++ f.put s := by
  apply known_shows hf h
  intro arg s hs
  unfold Directive.Shows
  split at hs
  · next harg =>
      rw [if_pos harg]
      exact (Option.some.inj hs).symm
  · next harg =>
      rw [if_neg harg]
      exact uartPuts_some hs

/-- The switch puts out its fragment, unless that is dropped. -/
theorem directive_shows (h : directive m fuel p = some q) :
    ∃ s, (directiveFragment m p.format).Shows m p.args s q.args ∧
      q.out = p.out ++ (directiveFragment m p.format).put s := by
  unfold directiveFragment
  by_cases hl : chr (m p.format) = 'l'
  · rw [if_pos hl]
    unfold directive at h
    rw [hl] at h
    exact long_shows h
  · rw [if_neg hl]
    unfold directive at h
    split at h
    · rename_i hc
      cases h
      rw [plainFragment, hc]
      exact ⟨_, .percent _, rfl⟩
    · rename_i hc
      exact word_shows (k := .char) (by rw [plainFragment, hc]; rfl) h fun _ => rfl
    · rename_i hc
      exact string_shows (by rw [plainFragment, hc]; rfl) h
    · rename_i hc
      exact word_shows (k := .int .d) (by rw [plainFragment, hc]; rfl) h fun _ => rfl
    · rename_i hc
      exact word_shows (k := .int .u) (by rw [plainFragment, hc]; rfl) h fun _ => rfl
    · rename_i hc
      exact word_shows (k := .int .x) (by rw [plainFragment, hc]; rfl) h fun _ => rfl
    · rename_i hc
      exact word_shows (k := .int .X) (by rw [plainFragment, hc]; rfl) h fun _ => rfl
    · rename_i hc
      exact word_shows (k := .pointer) (by rw [plainFragment, hc]; rfl) h fun _ => rfl
    · rename_i hc
      exact absurd hc hl
    · rename_i hpercent hchar hstring hd hu hx hX hp _
      cases h
      rw [plainFragment_other hpercent hchar hstring hd hu hx hX hp]
      exact ⟨_, .unknown _ _ _, rfl⟩

/-- Inside a directive a complete format goes on. -/
theorem string_next (h : CString m a bs) (hok : scan sc bs = .text) (hsc : sc ≠ .text) :
    ∃ rest, bs = m a :: rest ∧ CString m (a + 1) rest ∧
      scan (sc.next (chr (m a))).1 rest = .text := by
  cases bs with
  | nil => exact absurd hok hsc
  | cons b bs =>
      obtain ⟨rfl, _, hrest⟩ := h
      exact ⟨bs, rfl, hrest, hok⟩

/-- Behind a `%` a complete format has the fragment of the directive, then the rest. -/
theorem fragments_percent (h : CString m a bs) (hok : scan .percent bs = .text) :
    ∃ rest, CString m (a + longs m a + 1) rest ∧ scan .text rest = .text ∧
      fragments .percent bs = directiveFragment m a :: fragments .text rest := by
  obtain ⟨rest, rfl, hrest, hok⟩ := string_next h hok (by decide)
  unfold longs directiveFragment
  by_cases hl : chr (m a) = 'l'
  · rw [if_pos hl, if_pos hl]
    simp only [Scan.next, if_pos hl] at hok
    obtain ⟨rest, rfl, hrest, hok⟩ := string_next hrest hok (by decide)
    by_cases hll : chr (m (a + 1)) = 'l'
    · rw [if_pos hll, if_pos hll]
      simp only [Scan.next, if_pos hll] at hok
      obtain ⟨rest, rfl, hrest, hok⟩ := string_next hrest hok (by decide)
      refine ⟨rest, hrest, hok, ?_⟩
      simp only [fragments, Scan.fragment, Scan.next, if_pos hl, if_pos hll]
      rfl
    · rw [if_neg hll, if_neg hll]
      simp only [Scan.next, if_neg hll] at hok
      refine ⟨rest, hrest, hok, ?_⟩
      simp only [fragments, Scan.fragment, Scan.next, if_pos hl, if_neg hll]
      rfl
  · rw [if_neg hl, if_neg hl]
    simp only [Scan.next, if_neg hl] at hok
    refine ⟨rest, hrest, hok, ?_⟩
    simp only [fragments, Scan.fragment, Scan.next, if_neg hl]
    rfl

/-- What the code puts out of a list of fragments. -/
def kept (fs : List Fragment) : List Fragment := fs.filter fun f => !f.dropped

/-- One fragment more, in the reference output and in the output of the code. -/
theorem shows_cons {f : Fragment} {fs : List Fragment} {args args' : List ℕ}
    {out : List (BitVec 8)} (hf : f.Shows m args s args') (hout : ShowsAll m (kept fs) args' out) :
    ShowsAll m (kept (f :: fs)) args (f.put s ++ out) := by
  unfold kept Fragment.put
  by_cases hdropped : f.dropped = true
  · rw [List.filter_cons_of_neg (by simpa using hdropped), if_pos hdropped]
    cases hf with
    | unknown longs b args => exact hout
    | literal b args => cases hdropped
    | percent args => cases hdropped
    | known k arg args s h => cases hdropped
  · rw [List.filter_cons_of_pos (by simpa using hdropped), if_neg hdropped]
    exact .cons hf hout

/-- The loop puts out all fragments but the dropped ones. -/
theorem klogVprintf_shows (h : klogVprintf m fuel p = some q) (hstring : CString m p.format bs)
    (hok : FormatComplete bs) :
    ∃ ref out, ShowsAll m (fragments .text bs) p.args ref ∧
      ShowsAll m (kept (fragments .text bs)) p.args out ∧ q.out = p.out ++ out := by
  induction fuel generalizing p bs with
  | zero => cases h
  | succ fuel ih =>
      rw [klogVprintf] at h
      cases bs with
      | nil =>
          have hend : m p.format = 0 := hstring
          rw [if_pos hend] at h
          cases h
          exact ⟨[], [], .nil _, .nil _, (List.append_nil _).symm⟩
      | cons b bs =>
          obtain ⟨rfl, hne, hrest⟩ := hstring
          unfold FormatComplete at hok
          rw [if_neg hne] at h
          by_cases hpercent : chr (m p.format) = '%'
          · rw [if_neg (not_not.mpr hpercent)] at h
            obtain ⟨r, hr, h⟩ := Option.bind_eq_some_iff.mp h
            obtain ⟨s, hshows, hput⟩ := directive_shows hr
            simp only [scan, Scan.next, if_pos hpercent] at hok
            obtain ⟨rest, hbehind, hok, hfragments⟩ := fragments_percent hrest hok
            have hformat : r.advance.format = p.format + 1 + longs m (p.format + 1) + 1 :=
              congrArg (· + 1) (moved_directive hr).format
            rw [← hformat] at hbehind
            obtain ⟨ref, out, href, hout, heq⟩ := ih h hbehind hok
            have hall : fragments .text (m p.format :: bs) =
                directiveFragment m (p.format + 1) :: fragments .text rest := by
              rw [← hfragments]
              simp only [fragments, Scan.fragment, Scan.next, if_pos hpercent, List.nil_append]
            rw [hall]
            refine ⟨s ++ ref, _, .cons hshows href, shows_cons hshows hout, ?_⟩
            rw [heq, ← List.append_assoc]
            exact congrArg (· ++ out) hput
          · rw [if_pos hpercent] at h
            simp only [scan, Scan.next, if_neg hpercent] at hok
            obtain ⟨ref, out, href, hout, heq⟩ := ih h hrest hok
            have hall : fragments .text (m p.format :: bs) =
                .literal (m p.format) :: fragments .text bs := by
              simp only [fragments, Scan.fragment, Scan.next, if_neg hpercent]
              rfl
            have hshows := Fragment.Shows.literal (m := m) (m p.format) p.args
            rw [hall]
            refine ⟨[m p.format] ++ ref, _, .cons hshows href, shows_cons hshows hout, ?_⟩
            rw [heq, ← List.append_assoc]
            rfl

end Code

/-! ## The reference output is determined -/

section Unique

variable {m : Bytes} {f : Fragment} {fs : List Fragment} {args args₁ args₂ : List ℕ}
  {s₁ s₂ out₁ out₂ : List (BitVec 8)} {a : ℕ} {bs₁ bs₂ : List (BitVec 8)}

theorem CString.unique (h₁ : CString m a bs₁) (h₂ : CString m a bs₂) : bs₁ = bs₂ := by
  induction bs₁ generalizing a bs₂ with
  | nil =>
      cases bs₂ with
      | nil => rfl
      | cons b bs₂ => exact absurd (h₂.1.symm.trans h₁) h₂.2.1
  | cons b bs₁ ih =>
      cases bs₂ with
      | nil => exact absurd (h₁.1.symm.trans h₂) h₁.2.1
      | cons c bs₂ => rw [ih h₁.2.2 h₂.2.2, ← h₁.1, ← h₂.1]

theorem Directive.Shows.unique {k : Directive} {arg : ℕ} (h₁ : k.Shows m arg s₁)
    (h₂ : k.Shows m arg s₂) : s₁ = s₂ := by
  cases k with
  | string =>
      unfold Directive.Shows at h₁ h₂
      by_cases harg : arg = 0
      · rw [if_pos harg] at h₁ h₂
        exact h₁.trans h₂.symm
      · rw [if_neg harg] at h₁ h₂
        obtain ⟨bs₁, hbs₁, rfl⟩ := h₁
        obtain ⟨bs₂, hbs₂, rfl⟩ := h₂
        rw [hbs₁.unique hbs₂]
  | char | pointer | int _ => exact h₁.trans h₂.symm

theorem Fragment.Shows.unique (h₁ : f.Shows m args s₁ args₁) (h₂ : f.Shows m args s₂ args₂) :
    s₁ = s₂ ∧ args₁ = args₂ := by
  cases h₁ with
  | literal | percent | unknown =>
      cases h₂
      exact ⟨rfl, rfl⟩
  | known k arg args s h₁ =>
      cases h₂ with
      | known _ _ _ _ h₂ => exact ⟨h₁.unique h₂, rfl⟩

theorem ShowsAll.unique (h₁ : ShowsAll m fs args out₁) (h₂ : ShowsAll m fs args out₂) :
    out₁ = out₂ := by
  induction h₁ generalizing out₂ with
  | nil args =>
      cases h₂
      rfl
  | cons head _ ih =>
      cases h₂ with
      | cons head₂ tail₂ =>
          obtain ⟨rfl, rfl⟩ := head.unique head₂
          rw [ih tail₂]

/-- Each dropped fragment makes the output shorter. -/
theorem shows_length (href : ShowsAll m fs args out₁) (hkept : ShowsAll m (kept fs) args out₂) :
    out₂.length + fs.countP Fragment.dropped ≤ out₁.length := by
  induction href generalizing out₂ with
  | nil args =>
      cases hkept
      simp
  | cons head _ ih =>
      rename_i f fs args args' s out _
      rw [List.countP_cons]
      by_cases hdropped : f.dropped = true
      · rw [if_pos hdropped, List.length_append]
        unfold kept at hkept
        rw [List.filter_cons_of_neg (by simpa using hdropped)] at hkept
        cases head with
        | unknown longs b args =>
            have hlength := ih hkept
            have htext : 0 < (Fragment.unknown longs b).text.length := Nat.succ_pos _
            omega
        | literal b args => cases hdropped
        | percent args => cases hdropped
        | known k arg args s h => cases hdropped
      · rw [if_neg hdropped, List.length_append]
        unfold kept at hkept
        rw [List.filter_cons_of_pos (by simpa using hdropped)] at hkept
        cases hkept with
        | cons head₂ tail₂ =>
            obtain ⟨rfl, rfl⟩ := head.unique head₂
            have hlength := ih tail₂
            rw [List.length_append]
            omega

theorem kept_eq_self (h : ∀ f ∈ fs, f.dropped = false) : kept fs = fs := by
  apply List.filter_eq_self.mpr
  intro f hf
  simp [h f hf]

end Unique

/-! ## The whole output -/

section Output

variable {m : Bytes} {format : ℕ} {bs out : List (BitVec 8)} {args : List ℕ}

/-- The call ends, and `out` has gone to the console. -/
def Outputs (m : Bytes) (format : ℕ) (args : List ℕ) (out : List (BitVec 8)) : Prop :=
  ∃ N q, (∀ fuel ≥ N, klogVprintf m fuel ⟨format, args, [], []⟩ = some q) ∧ q.out = out

/-- The call puts out the reference output of the format. -/
def ShowsFormat (m : Bytes) (format : ℕ) (bs : List (BitVec 8)) (args : List ℕ) : Prop :=
  ∃ ref, ShowsAll m (fragments .text bs) args ref ∧ Outputs m format args ref

theorem Outputs.shows (h : Outputs m format args out) (hstring : CString m format bs)
    (hok : FormatComplete bs) :
    ∃ ref, ShowsAll m (fragments .text bs) args ref ∧
      ShowsAll m (kept (fragments .text bs)) args out := by
  obtain ⟨N, q, hq, rfl⟩ := h
  obtain ⟨ref, out, href, hout, heq⟩ := klogVprintf_shows (hq N (le_refl N)) hstring hok
  rw [heq]
  exact ⟨ref, href, hout⟩

/-- A format whose reference output is put out has no fragment that is dropped. -/
theorem ShowsFormat.dropped_eq (h : ShowsFormat m format bs args) (hstring : CString m format bs)
    (hok : FormatComplete bs) : ∀ f ∈ fragments .text bs, f.dropped = false := by
  obtain ⟨ref, href, houtputs⟩ := h
  obtain ⟨_, _, hkept⟩ := houtputs.shows hstring hok
  have hlength := shows_length href hkept
  have hnone : (fragments .text bs).countP Fragment.dropped = 0 := by omega
  intro f hf
  simpa using List.countP_eq_zero.mp hnone f hf

/-- A complete format with enough arguments is put out fragment by fragment exactly when it has no
unknown directive behind an `l`. -/
theorem klogVprintf_shows_iff (hstring : CString m format bs)
    (hargs : Supplies m (conversions .text bs) args) (hok : FormatComplete bs) :
    ShowsFormat m format bs args ↔ ∀ f ∈ fragments .text bs, f.dropped = false := by
  constructor
  · intro h
    exact h.dropped_eq hstring hok
  · intro h
    obtain ⟨N, q, hq, _⟩ := klogVprintf_complete (p := ⟨format, args, [], []⟩) hstring hargs hok
    have houtputs : Outputs m format args q.out := ⟨N, q, hq, rfl⟩
    obtain ⟨_, _, hkept⟩ := houtputs.shows hstring hok
    rw [kept_eq_self h] at hkept
    exact ⟨q.out, hkept, houtputs⟩

/-- A literal, a number, a percent sign and an unknown directive. -/
theorem klogVprintf_shows_iff_mixed :
    ShowsFormat (stringAtZero "a%d%%%q") 0 (text "a%d%%%q") [7] := by
  have hstring : CString (stringAtZero "a%d%%%q") 0 (text "a%d%%%q") :=
    ⟨rfl, by decide, rfl, by decide, rfl, by decide, rfl, by decide, rfl, by decide, rfl,
      by decide, rfl, by decide, rfl⟩
  have hargs : Supplies (stringAtZero "a%d%%%q") (conversions .text (text "a%d%%%q")) [7] := trivial
  exact (klogVprintf_shows_iff hstring hargs (by decide)).mpr (by decide)

/-- Of the format `"%lq"` nothing is put out. -/
theorem klogVprintf_drops :
    ¬ ∀ (m : Bytes) (format : ℕ) (bs : List (BitVec 8)) (args : List ℕ), CString m format bs →
      Supplies m (conversions .text bs) args → FormatComplete bs →
        ShowsFormat m format bs args := by
  intro h
  have hstring : CString (stringAtZero "%lq") 0 (text "%lq") :=
    ⟨rfl, by decide, rfl, by decide, rfl, by decide, rfl⟩
  have hshows := h (stringAtZero "%lq") 0 (text "%lq") [] hstring trivial (by decide)
  have hdropped := hshows.dropped_eq hstring (by decide) (.unknown 1 (byte 'q')) (by decide)
  revert hdropped
  decide

end Output

end Vectra
