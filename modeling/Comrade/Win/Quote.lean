import Comrade.Lib.Fill

/-!
# Command lines

Windows starts a program with one command line, and the program takes it apart again.
`win_cmdline` puts the words together, in quotes where that is needed, and `win_split` is its
inverse (`win_proc.c`).

* `winQuoteAppend` and `winCmdline` write into a buffer of `cap` bytes.
* `splitLoop` reads a line byte by byte; the words go into a store of `storecap` bytes.
* `line` is what a list of words looks like as one line.
* `winSplit_winCmdline`: whatever the words are, they come back, just if the line fits the
  buffer, and the words fit the places for them and the store.
-/

namespace Comrade
namespace Win

open Lib

/-! ## The code -/

/-- `"`. -/
def quote : UInt8 := 0x22

/-- The backslash. -/
def backslash : UInt8 := 0x5c

def space : UInt8 := 0x20

/-- The bytes that separate words. -/
def blank (c : UInt8) : Bool := c == space || c == 9

/-- The bytes for which `needs_quote` looks. -/
def special (c : UInt8) : Bool := blank c || c == 10 || c == 11 || c == quote

/-- `needs_quote`. -/
def needsQuote (a : Bytes) : Bool := a.isEmpty || a.any special

/-- The loop of `win_quote_append`, where `bs` backslashes have been counted and not written yet.
Each byte leaves room for the closing quote and the terminator. -/
def quoteLoop (cap : Nat) : Nat → Bytes → Bytes → Option Bytes
  | bs, buf, [] => putBytes (cap - 2) buf (List.replicate (bs * 2) backslash)
  | bs, buf, c :: arg =>
      if c = backslash then quoteLoop cap (bs + 1) buf arg
      else
        let bs := if c = quote then bs * 2 + 1 else bs
        (putBytes (cap - 2) buf (List.replicate bs backslash)).bind fun buf =>
          (putByte (cap - 2) buf c).bind fun buf => quoteLoop cap 0 buf arg

/-- `win_quote_append`. -/
def winQuoteAppend (cap : Nat) (buf arg : Bytes) : Option Bytes :=
  let buf := if buf ≠ [] ∧ buf.length + 1 < cap then buf ++ [space] else buf
  if needsQuote arg = false then
    if buf.length + arg.length + 1 > cap then none else some (buf ++ arg)
  else if buf.length + 1 ≥ cap then none
  else
    (quoteLoop cap 0 (buf ++ [quote]) arg).bind fun buf =>
      if buf.length + 2 > cap then none else some (buf ++ [quote])

/-- `win_cmdline`. -/
def winCmdline (cap : Nat) (argv : List Bytes) : Option Bytes :=
  if cap = 0 then none else argv.foldlM (winQuoteAppend cap) []

/-- The bytes that words take in the store, each with its terminator. -/
def used (argv : List Bytes) : Nat := (argv.map fun a => a.length + 1).sum

/-- The room for the word behind these. -/
def wordRoom (storecap : Nat) (argv : List Bytes) : Nat := storecap - 1 - used argv

/-- The end of a word. -/
def endWord (storecap : Nat) (argv : List Bytes) (text : Bytes) : Option (List Bytes) :=
  if used argv + text.length + 1 > storecap then none else some (argv ++ [text])

/-- The word that is being read: its bytes so far, whether it is inside quotes, and how many
backslashes have been counted that are not in its bytes. -/
structure Word where
  text : Bytes
  q : Bool
  bs : Nat

/-- The backslashes are literal. -/
def Word.flush (room : Nat) (w : Word) : Option Bytes :=
  putBytes room w.text (List.replicate w.bs backslash)

/-- One byte of a word. -/
def Word.step (room : Nat) (w : Word) (c : UInt8) : Option Word :=
  if c = backslash then some { w with bs := w.bs + 1 }
  else if c = quote then
    (putBytes room w.text (List.replicate (w.bs / 2) backslash)).bind fun text =>
      if w.bs % 2 = 1 then (putByte room text quote).map fun text => ⟨text, w.q, 0⟩
      else some ⟨text, !w.q, 0⟩
  else (w.flush room).bind fun text => (putByte room text c).map fun text => ⟨text, w.q, 0⟩

/-- The loops of `win_split`: the words that are whole, and the one that is being read if there
is one. -/
def splitLoop (places storecap : Nat) : List Bytes → Option Word → Bytes → Option (List Bytes)
  | argv, none, [] => some argv
  | argv, some w, [] => (w.flush (wordRoom storecap argv)).bind (endWord storecap argv)
  | argv, none, c :: cmd =>
      if blank c = true then splitLoop places storecap argv none cmd
      else if argv.length ≥ places then none
      else
        (Word.step (wordRoom storecap argv) ⟨[], false, 0⟩ c).bind fun w =>
          splitLoop places storecap argv (some w) cmd
  | argv, some w, c :: cmd =>
      if w.q = false ∧ blank c = true then
        ((w.flush (wordRoom storecap argv)).bind (endWord storecap argv)).bind fun argv =>
          splitLoop places storecap argv none cmd
      else
        (w.step (wordRoom storecap argv) c).bind fun w =>
          splitLoop places storecap argv (some w) cmd

section Split

variable (places storecap : Nat) (argv : List Bytes)

theorem splitLoop_done : splitLoop places storecap argv none [] = some argv := rfl

theorem splitLoop_last (w : Word) :
    splitLoop places storecap argv (some w) [] =
      (w.flush (wordRoom storecap argv)).bind (endWord storecap argv) :=
  rfl

theorem splitLoop_begin (c : UInt8) (cmd : Bytes) :
    splitLoop places storecap argv none (c :: cmd) =
      if blank c = true then splitLoop places storecap argv none cmd
      else if argv.length ≥ places then none
      else
        (Word.step (wordRoom storecap argv) ⟨[], false, 0⟩ c).bind fun w =>
          splitLoop places storecap argv (some w) cmd :=
  rfl

theorem splitLoop_word (w : Word) (c : UInt8) (cmd : Bytes) :
    splitLoop places storecap argv (some w) (c :: cmd) =
      if w.q = false ∧ blank c = true then
        ((w.flush (wordRoom storecap argv)).bind (endWord storecap argv)).bind fun argv =>
          splitLoop places storecap argv none cmd
      else
        (w.step (wordRoom storecap argv) c).bind fun w =>
          splitLoop places storecap argv (some w) cmd :=
  rfl

end Split

/-- `win_split`, where `maxv` is `places + 1`: the last place is for the null pointer. -/
def winSplit (places storecap : Nat) (cmd : Bytes) : Option (List Bytes) :=
  splitLoop places storecap [] none cmd

/-! ## Lines -/

/-- A word inside quotes, behind `bs` backslashes. -/
def escaped : Nat → Bytes → Bytes
  | bs, [] => List.replicate (bs * 2) backslash
  | bs, c :: arg =>
      if c = backslash then escaped (bs + 1) arg
      else
        List.replicate (if c = quote then bs * 2 + 1 else bs) backslash ++ c :: escaped 0 arg

theorem escaped_nil (bs : Nat) : escaped bs [] = List.replicate (bs * 2) backslash := rfl

theorem escaped_cons (bs : Nat) (c : UInt8) (arg : Bytes) :
    escaped bs (c :: arg) =
      if c = backslash then escaped (bs + 1) arg
      else
        List.replicate (if c = quote then bs * 2 + 1 else bs) backslash ++ c :: escaped 0 arg :=
  rfl

/-- A word on the line. -/
def quoted (arg : Bytes) : Bytes :=
  if needsQuote arg = true then quote :: (escaped 0 arg ++ [quote]) else arg

/-- The words behind the first. -/
def lineRest (argv : List Bytes) : Bytes := argv.flatMap fun a => space :: quoted a

/-- The line of a list of words. -/
def line : List Bytes → Bytes
  | [] => []
  | a :: argv => quoted a ++ lineRest argv

/-! ## Writing -/

variable {cap places storecap : Nat}

theorem quoteLoop_eq (bs : Nat) (buf arg : Bytes) :
    quoteLoop cap bs buf arg = putBytes (cap - 2) buf (escaped bs arg) := by
  induction arg generalizing bs buf with
  | nil => rfl
  | cons c arg ih =>
      rw [quoteLoop, escaped_cons]
      by_cases hc : c = backslash
      · rw [if_pos hc, if_pos hc, ih]
      · rw [if_neg hc, if_neg hc, putBytes_append]
        simp only [putBytes_cons, ih]

theorem quoted_of_not {arg : Bytes} (h : needsQuote arg = false) : quoted arg = arg := by
  rw [quoted, h]
  rfl

theorem quoted_of {arg : Bytes} (h : ¬needsQuote arg = false) :
    quoted arg = quote :: (escaped 0 arg ++ [quote]) := by
  rw [quoted, if_pos (by simpa using h)]

theorem quoted_ne_nil (arg : Bytes) : quoted arg ≠ [] := by
  by_cases h : needsQuote arg = false
  · rw [quoted_of_not h]
    rintro rfl
    simp [needsQuote] at h
  · simp [quoted_of h]

/-- A word is there, if the whole of it fits. -/
theorem writeWord_eq (buf arg : Bytes) :
    (if needsQuote arg = false then
        if buf.length + arg.length + 1 > cap then none else some (buf ++ arg)
      else if buf.length + 1 ≥ cap then none
      else
        (quoteLoop cap 0 (buf ++ [quote]) arg).bind fun buf =>
          if buf.length + 2 > cap then none else some (buf ++ [quote])) =
      if (buf ++ quoted arg).length < cap then some (buf ++ quoted arg) else none := by
  by_cases hq : needsQuote arg = false
  · rw [if_pos hq, quoted_of_not hq, List.length_append]
    split_ifs <;> first | rfl | omega
  · have hlen : (buf ++ quoted arg).length = buf.length + (escaped 0 arg).length + 2 := by
      rw [quoted_of hq]
      simp only [List.length_append, List.length_cons, List.length_nil]
      omega
    have hall : buf ++ quoted arg = buf ++ [quote] ++ escaped 0 arg ++ [quote] := by
      rw [quoted_of hq]
      simp
    have hquoted : (buf ++ [quote] ++ escaped 0 arg).length =
        buf.length + (escaped 0 arg).length + 1 := by
      simp only [List.length_append, List.length_singleton]
      omega
    have hopen : (buf ++ [quote]).length = buf.length + 1 := List.length_append ..
    rw [if_neg hq, quoteLoop_eq, putBytes_eq, hlen, hall, hopen]
    by_cases hfit : buf.length + (escaped 0 arg).length + 2 < cap
    · rw [if_pos hfit, if_neg (by omega), if_pos (Or.inr (by omega)), Option.bind_some,
        if_neg (by omega)]
    · rw [if_neg hfit]
      by_cases hfull : buf.length + 1 ≥ cap
      · rw [if_pos hfull]
      · rw [if_neg hfull]
        split_ifs
        · rw [Option.bind_some, if_pos (by omega)]
        · rfl

/-- What a word is put behind. -/
def separated (buf : Bytes) : Bytes := if buf = [] then [] else buf ++ [space]

theorem winQuoteAppend_eq {buf : Bytes} (hbuf : buf.length < cap) (arg : Bytes) :
    winQuoteAppend cap buf arg =
      if (separated buf ++ quoted arg).length < cap then some (separated buf ++ quoted arg)
      else none := by
  have hpos := List.length_pos_iff.mpr (quoted_ne_nil arg)
  rw [winQuoteAppend]
  simp only [writeWord_eq]
  by_cases hnil : buf = []
  · rw [hnil]
    rfl
  rw [separated, if_neg hnil]
  by_cases hspace : buf.length + 1 < cap
  · have hput : (if buf ≠ [] ∧ buf.length + 1 < cap then buf ++ [space] else buf) =
        buf ++ [space] := if_pos ⟨hnil, hspace⟩
    rw [hput]
  · -- Neither the space nor the word fits.
    have hput : (if buf ≠ [] ∧ buf.length + 1 < cap then buf ++ [space] else buf) = buf :=
      if_neg fun h => hspace h.2
    rw [hput, if_neg, if_neg]
    · simp only [List.length_append]
      omega
    · simp only [List.length_append]
      omega

/-- The words behind those on the line. -/
theorem foldlM_winQuoteAppend {buf : Bytes} (hne : buf ≠ []) (hbuf : buf.length < cap)
    (argv : List Bytes) :
    argv.foldlM (winQuoteAppend cap) buf =
      if (buf ++ lineRest argv).length < cap then some (buf ++ lineRest argv) else none := by
  induction argv generalizing buf with
  | nil => simp [lineRest, hbuf]
  | cons a argv ih =>
      have hsep : separated buf ++ quoted a = buf ++ (space :: quoted a) := by
        rw [separated, if_neg hne, List.append_assoc, List.singleton_append]
      have hline : buf ++ lineRest (a :: argv) = buf ++ (space :: quoted a) ++ lineRest argv := by
        rw [lineRest, List.flatMap_cons, List.append_assoc]
        rfl
      rw [List.foldlM_cons, winQuoteAppend_eq hbuf, hsep, hline]
      by_cases hfit : (buf ++ (space :: quoted a)).length < cap
      · rw [if_pos hfit]
        exact ih (by simp) hfit
      · rw [if_neg hfit, if_neg]
        · rfl
        · rw [List.length_append]
          omega

/-- `win_cmdline` writes the line of its words, if it fits. -/
theorem winCmdline_eq (argv : List Bytes) :
    winCmdline cap argv = if (line argv).length < cap then some (line argv) else none := by
  rw [winCmdline]
  by_cases hcap : cap = 0
  · rw [if_pos hcap, if_neg (by omega)]
  rw [if_neg hcap]
  cases argv with
  | nil =>
      rw [line, if_pos (by simpa using Nat.pos_of_ne_zero hcap)]
      rfl
  | cons a argv =>
      have hfirst := @winQuoteAppend_eq cap [] (Nat.pos_of_ne_zero hcap) a
      have hsep : separated [] ++ quoted a = quoted a := rfl
      rw [hsep] at hfirst
      rw [List.foldlM_cons, hfirst, line]
      by_cases hfit : (quoted a).length < cap
      · rw [if_pos hfit]
        exact foldlM_winQuoteAppend (quoted_ne_nil a) hfit argv
      · rw [if_neg hfit, if_neg]
        · rfl
        · rw [List.length_append]
          omega

/-! ## Reading -/

variable {argv : List Bytes}

theorem not_blank_of_not_special {c : UInt8} (h : special c = false) : blank c = false := by
  simp only [special, Bool.or_eq_false_iff] at h
  exact h.1.1.1

/-- One more backslash that is counted. -/
theorem backslashes_succ (bs : Nat) (arg : Bytes) :
    List.replicate (bs + 1) backslash ++ arg =
      List.replicate bs backslash ++ backslash :: arg := by
  rw [List.replicate_succ', List.append_assoc, List.singleton_append]

theorem Word.step_backslash (room : Nat) (w : Word) :
    w.step room backslash = some { w with bs := w.bs + 1 } :=
  if_pos rfl

theorem Word.step_quote (room : Nat) (w : Word) :
    w.step room quote =
      (putBytes room w.text (List.replicate (w.bs / 2) backslash)).bind fun text =>
        if w.bs % 2 = 1 then (putByte room text quote).map fun text => ⟨text, w.q, 0⟩
        else some ⟨text, !w.q, 0⟩ :=
  (if_neg (by decide)).trans (if_pos rfl)

/-- Backslashes are counted before anything is done about them. -/
theorem splitLoop_backslashes (w : Word) (k : Nat) (rest : Bytes) :
    splitLoop places storecap argv (some w) (List.replicate k backslash ++ rest) =
      splitLoop places storecap argv (some { w with bs := w.bs + k }) rest := by
  induction k generalizing w with
  | zero => rfl
  | succ k ih =>
      have hblank : ¬(w.q = false ∧ blank backslash = true) := by
        rintro ⟨-, h⟩
        exact absurd h (by decide)
      rw [List.replicate_succ, List.cons_append, splitLoop_word, if_neg hblank,
        Word.step_backslash, Option.bind_some, ih, Nat.add_assoc, Nat.add_comm 1]

/-- The backslashes that stand for themselves. -/
theorem Word.step_of_ne (room : Nat) (w : Word) {c : UInt8} (hc : c ≠ backslash)
    (hquote : c ≠ quote) :
    w.step room c =
      (putBytes room w.text (List.replicate w.bs backslash ++ [c])).map fun text =>
        ⟨text, w.q, 0⟩ := by
  rw [Word.step, if_neg hc, if_neg hquote, Word.flush, putBytes_append, Option.map_bind]
  simp only [Function.comp_def, putBytes_singleton]

/-- A quote behind an odd number of backslashes is literal. -/
theorem Word.step_odd (room : Nat) (text : Bytes) (q : Bool) (k : Nat) :
    Word.step room ⟨text, q, k * 2 + 1⟩ quote =
      (putBytes room text (List.replicate k backslash ++ [quote])).map fun text =>
        ⟨text, q, 0⟩ := by
  have hhalf : (k * 2 + 1) / 2 = k := by omega
  have hodd : (k * 2 + 1) % 2 = 1 := by omega
  rw [Word.step_quote]
  simp only [hhalf, hodd, if_true]
  rw [putBytes_append, Option.map_bind]
  simp only [Function.comp_def, putBytes_singleton]

/-- A quote behind an even number of backslashes opens or closes. -/
theorem Word.step_even (room : Nat) (text : Bytes) (q : Bool) (k : Nat) :
    Word.step room ⟨text, q, k * 2⟩ quote =
      (putBytes room text (List.replicate k backslash)).map fun text => ⟨text, !q, 0⟩ := by
  have hhalf : k * 2 / 2 = k := by omega
  have heven : ¬k * 2 % 2 = 1 := by omega
  rw [Word.step_quote]
  simp only [hhalf, if_neg heven]
  cases putBytes room text (List.replicate k backslash) <;> rfl

/-- What is inside quotes is read to the closing one. -/
theorem splitLoop_escaped (text arg rest : Bytes) (bs : Nat) :
    splitLoop places storecap argv (some ⟨text, true, 0⟩) (escaped bs arg ++ quote :: rest) =
      (putBytes (wordRoom storecap argv) text (List.replicate bs backslash ++ arg)).bind
        fun text => splitLoop places storecap argv (some ⟨text, false, 0⟩) rest := by
  have hopen : ∀ c : UInt8, ¬((true : Bool) = false ∧ blank c = true) := by
    rintro c ⟨h, -⟩
    exact Bool.noConfusion h
  induction arg generalizing bs text with
  | nil =>
      rw [escaped_nil, splitLoop_backslashes, splitLoop_word, if_neg (hopen quote), Nat.zero_add,
        Word.step_even, List.append_nil, Option.bind_map]
      rfl
  | cons c arg ih =>
      rw [escaped_cons]
      by_cases hc : c = backslash
      · rw [if_pos hc, ih, backslashes_succ, hc]
      · have hparts : List.replicate bs backslash ++ c :: arg =
            (List.replicate bs backslash ++ [c]) ++ arg := by simp
        rw [if_neg hc, List.append_assoc, splitLoop_backslashes, List.cons_append, splitLoop_word,
          if_neg (hopen c), Nat.zero_add, hparts, putBytes_append, Option.bind_assoc]
        have hstep : Word.step (wordRoom storecap argv)
            ⟨text, true, if c = quote then bs * 2 + 1 else bs⟩ c =
            (putBytes (wordRoom storecap argv) text (List.replicate bs backslash ++ [c])).map
              fun text => ⟨text, true, 0⟩ := by
          by_cases hquote : c = quote
          · rw [if_pos hquote, hquote, Word.step_odd]
          · rw [if_neg hquote, Word.step_of_ne _ _ hc hquote]
        rw [hstep, Option.bind_map]
        congr 1
        ext1 text
        exact ih text 0

/-- The line goes on with another word, or ends. -/
def Ends (rest : Bytes) : Prop := rest = [] ∨ ∃ more, rest = space :: more

/-- The end of a word takes its backslashes as they are. -/
theorem splitLoop_flush {rest : Bytes} (hrest : Ends rest) (text : Bytes) (bs : Nat) :
    splitLoop places storecap argv (some ⟨text, false, bs⟩) rest =
      (putBytes (wordRoom storecap argv) text (List.replicate bs backslash)).bind fun text =>
        splitLoop places storecap argv (some ⟨text, false, 0⟩) rest := by
  obtain rfl | ⟨more, rfl⟩ := hrest
  · rfl
  · have hblank : (false : Bool) = false ∧ blank space = true := ⟨rfl, rfl⟩
    rw [splitLoop_word, if_pos hblank, Word.flush, Option.bind_assoc]
    congr 1

/-- A word without quotes. -/
theorem splitLoop_bare {rest : Bytes} (hrest : Ends rest) {arg : Bytes}
    (harg : ∀ c ∈ arg, special c = false) (text : Bytes) (bs : Nat) :
    splitLoop places storecap argv (some ⟨text, false, bs⟩) (arg ++ rest) =
      (putBytes (wordRoom storecap argv) text (List.replicate bs backslash ++ arg)).bind
        fun text => splitLoop places storecap argv (some ⟨text, false, 0⟩) rest := by
  induction arg generalizing bs text with
  | nil => rw [List.nil_append, List.append_nil, splitLoop_flush hrest]
  | cons c arg ih =>
      obtain ⟨hc, harg⟩ := List.forall_mem_cons.mp harg
      have hblank := not_blank_of_not_special hc
      have hquote : c ≠ quote := by
        rintro rfl
        exact absurd hc (by decide)
      have hin : ¬((false : Bool) = false ∧ blank c = true) := by simp [hblank]
      rw [List.cons_append, splitLoop_word, if_neg hin]
      by_cases hbs : c = backslash
      · rw [hbs, Word.step_backslash, Option.bind_some, ih harg, backslashes_succ]
      · have hparts : List.replicate bs backslash ++ c :: arg =
            (List.replicate bs backslash ++ [c]) ++ arg := by simp
        have hputs := @putBytes_append (wordRoom storecap argv) text
          (List.replicate bs backslash ++ [c]) arg
        rw [Word.step_of_ne _ _ hbs hquote, Option.bind_map, hparts, hputs, Option.bind_assoc]
        congr 1
        ext1 text
        exact ih harg text 0

/-- A word of the line. -/
theorem splitLoop_quoted {rest : Bytes} (hrest : Ends rest) (arg : Bytes) :
    splitLoop places storecap argv none (quoted arg ++ rest) =
      if argv.length ≥ places then none
      else (putBytes (wordRoom storecap argv) [] arg).bind fun text =>
        splitLoop places storecap argv (some ⟨text, false, 0⟩) rest := by
  have hbegin : ∀ c s, blank c = false →
      splitLoop places storecap argv none (c :: s) =
        if argv.length ≥ places then none
        else splitLoop places storecap argv (some ⟨[], false, 0⟩) (c :: s) := by
    intro c s hc
    have hin : ¬((false : Bool) = false ∧ blank c = true) := by simp [hc]
    rw [splitLoop_begin, if_neg (by simp [hc]), splitLoop_word, if_neg hin]
  by_cases hq : needsQuote arg = false
  · have hspecial : ∀ c ∈ arg, special c = false := by
      simp only [needsQuote, Bool.or_eq_false_iff, List.any_eq_false] at hq
      intro c hc
      simpa using hq.2 c hc
    obtain ⟨c, s, rfl⟩ : ∃ c s, arg = c :: s := by
      apply List.exists_cons_of_ne_nil
      rintro rfl
      simp [needsQuote] at hq
    have hblank := not_blank_of_not_special (hspecial c List.mem_cons_self)
    have hbare := @splitLoop_bare places storecap argv rest hrest (c :: s) hspecial [] 0
    rw [List.cons_append] at hbare
    rw [quoted_of_not hq, List.cons_append, hbegin c _ hblank, hbare]
    rfl
  · have hin : ¬((false : Bool) = false ∧ blank quote = true) := by decide
    have hopens := Word.step_even (wordRoom storecap argv) [] false 0
    rw [quoted_of hq, List.cons_append, hbegin quote _ (by decide), splitLoop_word, if_neg hin]
    rw [Nat.zero_mul] at hopens
    rw [hopens, List.append_assoc, List.singleton_append]
    congr 1
    exact splitLoop_escaped [] arg rest 0

@[simp] theorem used_append (argv : List Bytes) (a : Bytes) :
    used (argv ++ [a]) = used argv + (a.length + 1) := by
  simp [used]

theorem used_cons (a : Bytes) (argv : List Bytes) :
    used (a :: argv) = a.length + 1 + used argv := by
  simp [used]

/-- A word and its terminator, in the store. -/
theorem putBytes_endWord (a : Bytes) :
    (putBytes (wordRoom storecap argv) [] a).bind (endWord storecap argv) =
      if used argv + a.length + 1 ≤ storecap then some (argv ++ [a]) else none := by
  rw [putBytes_eq, List.nil_append, List.length_nil, Nat.zero_add, wordRoom]
  by_cases hfit : used argv + a.length + 1 ≤ storecap
  · rw [if_pos (Or.inr (by omega)), if_pos hfit, Option.bind_some, endWord, if_neg (by omega)]
  · rw [if_neg hfit]
    split_ifs
    · rw [Option.bind_some, endWord, if_pos (by omega)]
    · rfl

/-- The words of a line, behind those that have been read. -/
theorem splitLoop_line (words : List Bytes) (argv : List Bytes) :
    splitLoop places storecap argv none (line words) =
      if words = [] ∨ argv.length + words.length ≤ places ∧ used argv + used words ≤ storecap then
        some (argv ++ words)
      else none := by
  induction words generalizing argv with
  | nil => simp [line, splitLoop_done]
  | cons a words ih =>
      have hnext : ∀ text, splitLoop places storecap argv (some ⟨text, false, 0⟩)
          (lineRest words) = (endWord storecap argv text).bind fun argv =>
            splitLoop places storecap argv none (line words) := by
        intro text
        cases words with
        | nil =>
            rw [lineRest, List.flatMap_nil, splitLoop_last]
            cases h : endWord storecap argv text with
            | none => simp [Word.flush, h]
            | some argv => simp [Word.flush, h, line, splitLoop_done]
        | cons b words =>
            have hblank : (false : Bool) = false ∧ blank space = true := ⟨rfl, rfl⟩
            rw [lineRest, List.flatMap_cons, List.cons_append, splitLoop_word, if_pos hblank]
            rfl
      have hends : Ends (lineRest words) := by
        cases words with
        | nil => exact Or.inl rfl
        | cons b words => exact Or.inr ⟨_, rfl⟩
      rw [line, splitLoop_quoted hends]
      simp only [hnext, ← Option.bind_assoc, putBytes_endWord]
      have hlen : (a :: words).length = words.length + 1 := rfl
      rw [hlen, used_cons]
      by_cases hplace : argv.length ≥ places
      · rw [if_pos hplace, if_neg]
        rintro (h | ⟨h, -⟩)
        · exact List.cons_ne_nil a words h
        · omega
      rw [if_neg hplace]
      by_cases hfit : used argv + a.length + 1 ≤ storecap
      · rw [if_pos hfit, Option.bind_some, ih, List.append_assoc, List.singleton_append,
          List.length_append, List.length_singleton, used_append]
        have hiff : (words = [] ∨ argv.length + 1 + words.length ≤ places ∧
            used argv + (a.length + 1) + used words ≤ storecap) ↔
            (a :: words = [] ∨ argv.length + (words.length + 1) ≤ places ∧
              used argv + (a.length + 1 + used words) ≤ storecap) := by
          constructor
          · rintro (rfl | ⟨hplaces, hstore⟩)
            · refine Or.inr ⟨by simpa using hplace, ?_⟩
              simpa [used, Nat.add_assoc] using hfit
            · exact Or.inr ⟨by omega, by omega⟩
          · rintro (h | ⟨hplaces, hstore⟩)
            · exact absurd h (List.cons_ne_nil a words)
            · exact Or.inr ⟨by omega, by omega⟩
        simp only [hiff]
      · rw [if_neg hfit, Option.bind_none, if_neg]
        rintro (h | ⟨-, h⟩)
        · exact List.cons_ne_nil a words h
        · omega

/-- `win_split` is the inverse of `win_cmdline`: whatever bytes the words are made of, the words
of a command line come back as they were, just if the line fits the buffer it was written to,
and there are places for the words and room for them in the store. -/
theorem winSplit_winCmdline (cap places storecap : Nat) (argv : List Bytes) :
    (winCmdline cap argv).bind (winSplit places storecap) =
      if (line argv).length < cap ∧ argv.length ≤ places ∧ used argv ≤ storecap then some argv
      else none := by
  rw [winCmdline_eq]
  by_cases hcap : (line argv).length < cap
  · rw [if_pos hcap, Option.bind_some, winSplit, splitLoop_line, List.nil_append]
    have hiff : (argv = [] ∨ ([] : List Bytes).length + argv.length ≤ places ∧
        used [] + used argv ≤ storecap) ↔
        ((line argv).length < cap ∧ argv.length ≤ places ∧ used argv ≤ storecap) := by
      have hnone : used [] = 0 := rfl
      rw [hnone, List.length_nil, Nat.zero_add, Nat.zero_add]
      constructor
      · rintro (rfl | h)
        · exact ⟨hcap, Nat.zero_le _, Nat.zero_le _⟩
        · exact ⟨hcap, h⟩
      · exact fun h => Or.inr h.2
    simp only [hiff]
  · rw [if_neg hcap, if_neg (fun h => hcap h.1)]
    rfl

end Win
end Comrade
