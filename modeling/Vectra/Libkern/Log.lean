import Vectra.Lib.Framing
import Vectra.Lib.Run
import Vectra.Libkern.Format

/-!
# The log on the console

A line of the log is the name of its level, the subsystem in magenta, and the formatted message.
The line ends with a carriage return and a line feed, as `uart_puts` makes them of its newline;
a newline in a format goes to the console alone. So the console can be read back line by line,
also where a message has several lines, as long as no argument brings a carriage return with it.
-/

namespace Vectra

open Lib

/-! ## `klog` -/

inductive KLogLevel
  | debug
  | info
  | notice
  | warning
  | error
  | critical
  | panic
  deriving DecidableEq

/-- The byte that starts each colour. -/
def esc : BitVec 8 := 0x1b#8

def colorReset : List (BitVec 8) := esc :: text "[0m"

def colorRed : List (BitVec 8) := esc :: text "[1;31m"

def colorYellow : List (BitVec 8) := esc :: text "[1;33m"

def colorBlue : List (BitVec 8) := esc :: text "[1;34m"

def colorMagenta : List (BitVec 8) := esc :: text "[1;35m"

def colorCyan : List (BitVec 8) := esc :: text "[1;36m"

def levelName : KLogLevel → List (BitVec 8)
  | .debug => colorCyan ++ text "[debug]" ++ colorReset
  | .info => colorCyan ++ text "[info]" ++ colorReset
  | .notice => colorBlue ++ text "[notice]" ++ colorReset
  | .warning => colorYellow ++ text "[warning]" ++ colorReset
  | .error => colorRed ++ text "[error]" ++ colorReset
  | .critical => colorRed ++ text "[critical]" ++ colorReset
  | .panic => colorRed ++ text "[panic]" ++ colorReset

/-- A call of `klog`, or of one of the functions that fix its level. -/
structure KLogCall where
  level : KLogLevel
  subsystem : ℕ
  format : ℕ
  args : List ℕ

/-- What a call puts out. The fuel is that of the strings and of the format. -/
def klog (m : Bytes) (fuel : ℕ) (c : KLogCall) : Option (List (BitVec 8)) := do
  let name ← uartPuts m c.subsystem fuel
  let p ← klogVprintf m fuel ⟨c.format, c.args, [], []⟩
  some (crlf (levelName c.level) ++ crlf (text " ") ++ crlf colorMagenta ++ name ++
    crlf colorReset ++ crlf (text ": ") ++ p.out ++ crlf (text "\n"))

/-- One call after another on the same console. -/
def LogStep (console : List (BitVec 8)) (e : Bytes × KLogCall) (console' : List (BitVec 8)) :
    Prop :=
  ∃ fuel line, klog e.1 fuel e.2 = some line ∧ console' = console ++ line

/-! ## Reading the console -/

structure LogEntry where
  level : KLogLevel
  subsystem : List (BitVec 8)
  message : List (BitVec 8)
  deriving DecidableEq

/-- The line of an entry. -/
def LogEntry.line (e : LogEntry) : List (BitVec 8) :=
  levelName e.level ++ (text " " ++ (colorMagenta ++ (e.subsystem ++ (colorReset ++
    (text ": " ++ (e.message ++ [byte '\r', byte '\n']))))))

def levelTags : List (KLogLevel × List (BitVec 8)) :=
  [.debug, .info, .notice, .warning, .error, .critical, .panic].map fun l => (l, levelName l)

def readEntry (s : List (BitVec 8)) : Option (LogEntry × List (BitVec 8)) := do
  let (level, s) ← readTag levelTags s
  let s ← expect (text " ") s
  let s ← expect colorMagenta s
  let (subsystem, s) := readField esc s
  let s ← expect colorReset s
  let s ← expect (text ": ") s
  let (message, s) := readField (byte '\r') s
  let s ← expect [byte '\r', byte '\n'] s
  some (⟨level, subsystem, message⟩, s)

def readLog (s : List (BitVec 8)) : Option (List LogEntry) := readAll readEntry s.length s

/-! ## Calls that can be told apart -/

/-- The argument brings no carriage return. -/
def Directive.Quiet (m : Bytes) (arg : ℕ) : Directive → Prop
  | .char => BitVec.ofNat 8 arg ≠ byte '\r'
  | .string => arg ≠ 0 → ∀ bs, CString m arg bs → byte '\r' ∉ bs ∧ byte '\n' ∉ bs
  | .pointer => True
  | .int _ => True

def QuietArgs (m : Bytes) : List Fragment → List ℕ → Prop
  | .known k :: fs, arg :: args => k.Quiet m arg ∧ QuietArgs m fs args
  | .known _ :: _, [] => True
  | _ :: fs, args => QuietArgs m fs args
  | [], _ => True

/-- The subsystem has no escape sequence and no newline, the format is complete and has no
carriage return, and no argument brings one. -/
structure KLogCall.Quiet (m : Bytes) (c : KLogCall) : Prop where
  subsystem : ∃ bs, CString m c.subsystem bs ∧ esc ∉ bs ∧ byte '\n' ∉ bs
  format : ∃ bs, CString m c.format bs ∧ FormatComplete bs ∧ byte '\r' ∉ bs ∧
    QuietArgs m (fragments .text bs) c.args

/-- The entry that a call makes. -/
structure Logged (m : Bytes) (c : KLogCall) (e : LogEntry) : Prop where
  level : e.level = c.level
  subsystem : CString m c.subsystem e.subsystem
  message : ∃ bs, CString m c.format bs ∧ ShowsAll m (kept (fragments .text bs)) c.args e.message

/-! ## One line -/

section Line

variable {m : Bytes} {c : KLogCall} {fuel : ℕ} {line bs : List (BitVec 8)} {e : LogEntry}

theorem crlf_of_notMem (h : byte '\n' ∉ bs) : crlf bs = bs := by
  induction bs with
  | nil => rfl
  | cons b bs ih =>
      rw [List.mem_cons, not_or] at h
      unfold crlf at ih ⊢
      rw [List.flatMap_cons, ih h.2, if_neg fun heq => h.1 heq.symm]
      rfl

theorem levelName_plain (l : KLogLevel) : byte '\n' ∉ levelName l := by
  cases l <;> decide

/-- Of a call that returns, the line is that of an entry. -/
theorem klog_line (h : klog m fuel c = some line) (hname : CString m c.subsystem bs)
    (hplain : byte '\n' ∉ bs) : ∃ q, klogVprintf m fuel ⟨c.format, c.args, [], []⟩ = some q ∧
      line = LogEntry.line ⟨c.level, bs, q.out⟩ := by
  obtain ⟨name, hputs, h⟩ := Option.bind_eq_some_iff.mp h
  obtain ⟨q, hprint, h⟩ := Option.bind_eq_some_iff.mp h
  obtain ⟨bs', hbs', rfl⟩ := uartPuts_some hputs
  rw [hbs'.unique hname, crlf_of_notMem hplain, crlf_of_notMem (levelName_plain c.level),
    crlf_of_notMem (by decide : byte '\n' ∉ text " "),
    crlf_of_notMem (by decide : byte '\n' ∉ colorMagenta),
    crlf_of_notMem (by decide : byte '\n' ∉ colorReset),
    crlf_of_notMem (by decide : byte '\n' ∉ text ": ")] at h
  refine ⟨q, hprint, ?_⟩
  rw [← Option.some.inj h]
  simp only [LogEntry.line, List.append_assoc]
  rfl

/-- A line is read back in front of anything. -/
theorem readEntry_line (hsubsystem : esc ∉ e.subsystem) (hmessage : byte '\r' ∉ e.message)
    (s : List (BitVec 8)) : readEntry (e.line ++ s) = some (e, s) := by
  have htag : ∀ rest, readTag levelTags (levelName e.level ++ rest) = some (e.level, rest) := by
    intro rest
    apply readTag_append
    · cases e.level <;> decide
    · cases e.level <;> decide
  have hname : ∀ rest, readField esc (e.subsystem ++ (colorReset ++ rest)) =
      (e.subsystem, colorReset ++ rest) := fun rest => readField_append hsubsystem _
  have hend : ∀ rest, readField (byte '\r') (e.message ++ ([byte '\r', byte '\n'] ++ rest)) =
      (e.message, [byte '\r', byte '\n'] ++ rest) := fun rest => readField_append hmessage _
  unfold readEntry LogEntry.line
  simp only [List.append_assoc, htag, hname, hend, expect_append, Option.bind_eq_bind,
    Option.bind_some]

theorem line_ne_nil (e : LogEntry) : e.line ≠ [] := by
  unfold LogEntry.line
  cases e.level <;> exact List.cons_ne_nil _ _

end Line

/-! ## What a message holds -/

section Message

variable {m : Bytes} {fs : List Fragment} {args : List ℕ} {out : List (BitVec 8)} {value base : ℕ}

theorem digitByte_quiet {ten : Char} {d : ℕ} (hten : ten = 'a' ∨ ten = 'A') (hd : d < 16) :
    byte '\r' ≠ digitByte ten d := by
  rcases hten with rfl | rfl <;> revert d <;> decide

theorem digits_quiet {ten : Char} (hten : ten = 'a' ∨ ten = 'A') (hlow : 1 < base)
    (hbase : base ≤ 16) :
    byte '\r' ∉ ((Nat.digits base value).map (digitByte ten)).reverse := by
  intro hmem
  rw [List.mem_reverse] at hmem
  obtain ⟨d, hd, heq⟩ := List.mem_map.mp hmem
  have hlt := Nat.digits_lt_base hlow hd
  exact digitByte_quiet hten (by omega) heq.symm

theorem putUnsigned_quiet (hlow : 1 < base) (hbase : base ≤ 16) :
    byte '\r' ∉ putUnsigned value base := by
  unfold putUnsigned
  split
  · decide
  · exact digits_quiet (Or.inl rfl) hlow hbase

theorem putSigned_quiet : byte '\r' ∉ putSigned value := by
  have hdigits : ∀ v, byte '\r' ∉ putUnsigned v 10 := fun v =>
    putUnsigned_quiet (by norm_num) (by norm_num)
  unfold putSigned
  split
  · rw [List.mem_cons, not_or]
    exact ⟨by decide, hdigits _⟩
  · exact hdigits _

theorem emits_quiet (dir : IntDirective) (arg : ℕ) : byte '\r' ∉ dir.emits arg := by
  have hupper : byte '\r' ∉ putUpper (arg % 2 ^ 32) := by
    unfold putUpper
    split
    · decide
    · exact digits_quiet (Or.inr rfl) (by norm_num) (by norm_num)
  cases dir with
  | d | ld | lld => exact putSigned_quiet
  | u | lu | llu => exact putUnsigned_quiet (by norm_num) (by norm_num)
  | x | lx | llx => exact putUnsigned_quiet (by norm_num) (by norm_num)
  | X => exact hupper

theorem crlf_quiet {bs : List (BitVec 8)} (hr : byte '\r' ∉ bs) (hn : byte '\n' ∉ bs) :
    byte '\r' ∉ crlf bs := by
  rw [crlf_of_notMem hn]
  exact hr

theorem Directive.Shows.quiet {k : Directive} {arg : ℕ} {s : List (BitVec 8)}
    (h : k.Shows m arg s) (hk : k.Quiet m arg) : byte '\r' ∉ s := by
  cases k with
  | char =>
      rw [show s = [BitVec.ofNat 8 arg] from h, List.mem_singleton]
      exact fun heq => hk heq.symm
  | string =>
      unfold Directive.Shows at h
      by_cases harg : arg = 0
      · rw [if_pos harg] at h
        rw [h]
        decide
      · rw [if_neg harg] at h
        obtain ⟨bs, hbs, rfl⟩ := h
        obtain ⟨hr, hn⟩ := hk harg bs hbs
        exact crlf_quiet hr hn
  | pointer =>
      rw [show s = Vectra.text "0x" ++ putUnsigned arg 16 from h, List.mem_append, not_or]
      exact ⟨by decide, putUnsigned_quiet (by norm_num) (by norm_num)⟩
  | int dir =>
      rw [show s = dir.emits arg from h]
      exact emits_quiet dir arg

/-- What is put out has no carriage return where neither the format nor an argument has one. -/
theorem ShowsAll.quiet (h : ShowsAll m fs args out) (htext : ∀ f ∈ fs, byte '\r' ∉ f.text)
    (hargs : QuietArgs m fs args) : byte '\r' ∉ out := by
  induction h with
  | nil args => exact List.not_mem_nil
  | @cons f fs args args' s out head tail ih =>
      have hrest := fun g hg => htext g (List.mem_cons_of_mem f hg)
      have hf := htext f List.mem_cons_self
      rw [List.mem_append, not_or]
      cases head with
      | literal b args => exact ⟨hf, ih hrest hargs⟩
      | percent args => exact ⟨by decide, ih hrest hargs⟩
      | known k arg args s hs => exact ⟨hs.quiet hargs.1, ih hrest hargs.2⟩
      | unknown longs b args => exact ⟨hf, ih hrest hargs⟩

theorem QuietArgs.kept (h : QuietArgs m fs args) : QuietArgs m (kept fs) args := by
  induction fs generalizing args with
  | nil => exact h
  | cons f fs ih =>
      cases f with
      | literal b => exact ih h
      | percent => exact ih h
      | known k =>
          cases args with
          | nil => exact trivial
          | cons arg args => exact ⟨h.1, ih h.2⟩
      | unknown longs b =>
          unfold Vectra.kept
          rw [List.filter_cons]
          split
          · exact ih h
          · exact ih h

end Message

/-! ## Runs -/

section Runs

variable {m : Bytes} {c : KLogCall} {fuel : ℕ} {line : List (BitVec 8)}

/-- A quiet call writes a line that can be read back. -/
theorem KLogCall.Quiet.logged (hc : c.Quiet m) (h : klog m fuel c = some line) :
    ∃ e : LogEntry, Logged m c e ∧ line = e.line ∧
      ∀ s, readEntry (e.line ++ s) = some (e, s) := by
  obtain ⟨name, hname, hesc, hplain⟩ := hc.subsystem
  obtain ⟨bs, hbs, hok, hreturn, hargs⟩ := hc.format
  obtain ⟨q, hprint, rfl⟩ := klog_line h hname hplain
  obtain ⟨_, out, _, hshows, hout⟩ := klogVprintf_shows hprint hbs hok
  have hout : q.out = out := hout
  have htext : ∀ f ∈ kept (fragments .text bs), byte '\r' ∉ f.text := by
    intro f hf hmem
    have hin : byte '\r' ∈ (fragments .text bs).flatMap Fragment.text :=
      List.mem_flatMap.mpr ⟨f, (List.mem_filter.mp hf).1, hmem⟩
    rw [fragments_text hok] at hin
    exact hreturn hin
  rw [hout]
  exact ⟨_, ⟨rfl, hname, bs, hbs, hshows⟩, rfl,
    readEntry_line hesc (hshows.quiet htext hargs.kept)⟩

/-- A log can be read back: in every run of calls, over whatever memory each of them finds, the
console is cut into as many entries as there were calls, and each has the level, the subsystem
and the whole message of its call. -/
theorem klog_run_reads_back {es : List (Bytes × KLogCall)} {console : List (BitVec 8)}
    (hrun : Run LogStep [] es console) (hquiet : ∀ e ∈ es, e.2.Quiet e.1) :
    ∃ entries, List.Forall₂ (fun e entry => Logged e.1 e.2 entry) es entries ∧
      readLog console = some entries := by
  have hall : ∀ {s es t}, Run LogStep s es t → (∀ e ∈ es, e.2.Quiet e.1) →
      ∃ entries, List.Forall₂ (fun e entry => Logged e.1 e.2 entry) es entries ∧
        (∀ e ∈ entries, ∀ s, readEntry (e.line ++ s) = some (e, s)) ∧
        t = s ++ entries.flatMap LogEntry.line := by
    intro s es t hrun
    induction hrun with
    | nil s => exact fun _ => ⟨[], .nil, by simp, by simp⟩
    | @cons s u t e es head tail ih =>
        intro hquiet
        obtain ⟨fuel, line, hline, rfl⟩ := head
        obtain ⟨entry, hlogged, rfl, hread⟩ := (hquiet e List.mem_cons_self).logged hline
        obtain ⟨entries, hlog, hreads, rfl⟩ :=
          ih fun e' he' => hquiet e' (List.mem_cons_of_mem e he')
        refine ⟨entry :: entries, .cons hlogged hlog, ?_, ?_⟩
        · intro e' he'
          rcases List.mem_cons.mp he' with rfl | he'
          · exact hread
          · exact hreads e' he'
        · rw [List.flatMap_cons, List.append_assoc]
  obtain ⟨entries, hlog, hreads, rfl⟩ := hall hrun hquiet
  refine ⟨entries, hlog, ?_⟩
  unfold readLog
  rw [List.nil_append]
  exact readAll_flatMap hreads (fun e _ => line_ne_nil e)
    (length_le_flatMap fun e _ => line_ne_nil e)

/-- Two calls with a message of two lines. -/
theorem klog_run_reads_back_two_calls :
    ∃ console a b, Run LogStep [] [(stringAtZero "kern\x00two\nlines", ⟨.info, 0, 5, []⟩),
        (stringAtZero "kern\x00two\nlines", ⟨.panic, 0, 5, []⟩)] console ∧
      readLog console = some [a, b] ∧ a.level = .info ∧ b.level = .panic := by
  obtain ⟨first, hfirst⟩ := Option.isSome_iff_exists.mp (by decide +kernel :
    (klog (stringAtZero "kern\x00two\nlines") 20 ⟨.info, 0, 5, []⟩).isSome)
  obtain ⟨second, hsecond⟩ := Option.isSome_iff_exists.mp (by decide +kernel :
    (klog (stringAtZero "kern\x00two\nlines") 20 ⟨.panic, 0, 5, []⟩).isSome)
  have hrun : Run LogStep [] [(stringAtZero "kern\x00two\nlines", ⟨.info, 0, 5, []⟩),
      (stringAtZero "kern\x00two\nlines", ⟨.panic, 0, 5, []⟩)] ([] ++ first ++ second) :=
    .cons ⟨20, first, hfirst, rfl⟩ (.cons ⟨20, second, hsecond, rfl⟩ (.nil _))
  have hname : CString (stringAtZero "kern\x00two\nlines") 0 (text "kern") :=
    ⟨rfl, by decide, rfl, by decide, rfl, by decide, rfl, by decide, rfl⟩
  have hformat : CString (stringAtZero "kern\x00two\nlines") 5 (text "two\nlines") :=
    ⟨rfl, by decide, rfl, by decide, rfl, by decide, rfl, by decide, rfl, by decide, rfl,
      by decide, rfl, by decide, rfl, by decide, rfl, by decide, rfl⟩
  have hquiet : ∀ level, KLogCall.Quiet (stringAtZero "kern\x00two\nlines") ⟨level, 0, 5, []⟩ :=
    fun _ => ⟨⟨_, hname, by decide, by decide⟩, ⟨_, hformat, by decide, by decide, trivial⟩⟩
  obtain ⟨entries, hlogged, hread⟩ := klog_run_reads_back hrun fun e he => by
    simp only [List.mem_cons, List.not_mem_nil, or_false] at he
    rcases he with rfl | rfl
    · exact hquiet _
    · exact hquiet _
  cases hlogged with
  | cons ha hrest =>
      cases hrest with
      | cons hb hnil =>
          cases hnil
          exact ⟨_, _, _, hrun, hread, ha.level, hb.level⟩

/-- A format `"%s"`, a subsystem, and a string whose second line looks like a line of the log. -/
def forgedMem : Bytes := fun a =>
  (text "%s\x00a\x00x\n" ++ levelName .panic ++ text " " ++ colorMagenta ++ text "a" ++
    colorReset ++ text ": y\x00x").getD a 0

/-- A string argument with a newline passes for a line of its own. -/
theorem klog_forged : ∃ line, klog forgedMem 64 ⟨.info, 3, 0, [5]⟩ = some line ∧
    Run LogStep [] [(forgedMem, ⟨.info, 3, 42, []⟩), (forgedMem, ⟨.panic, 3, 40, []⟩)] line := by
  obtain ⟨first, hfirst⟩ := Option.isSome_iff_exists.mp
    (by decide +kernel : (klog forgedMem 64 ⟨.info, 3, 42, []⟩).isSome)
  obtain ⟨second, hsecond⟩ := Option.isSome_iff_exists.mp
    (by decide +kernel : (klog forgedMem 64 ⟨.panic, 3, 40, []⟩).isSome)
  have hboth : klog forgedMem 64 ⟨.info, 3, 0, [5]⟩ =
      (klog forgedMem 64 ⟨.info, 3, 42, []⟩).bind fun a =>
        (klog forgedMem 64 ⟨.panic, 3, 40, []⟩).map fun b => [] ++ a ++ b := by decide +kernel
  rw [hfirst, hsecond] at hboth
  exact ⟨_, hboth, .cons ⟨64, first, hfirst, rfl⟩ (.cons ⟨64, second, hsecond, rfl⟩ (.nil _))⟩

end Runs

end Vectra
