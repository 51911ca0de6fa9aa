import Comrade.Lib.ScanFields

/-!
# Events of the view, as lines

On a host the session runs in a service and the view in the foreground, and what the session
reports goes from the one to the other as lines of text (`ui.c`).  The service writes one line
for an event (`em_net` and its like), and the foreground reads the line with a format and calls
the view as the session would have (`feed`).

* `heardAs` is what the foreground makes of an event: the texts are cut to the widths of its
  formats, and an event whose text is missing is not one.
* `feed_emLine`: it does, for every event whose line is whole.
-/

namespace Comrade
namespace Ui

open Lib

/-! ## Events -/

/-- `struct session_mailbox`. -/
structure SessionMailbox where
  engaged : Int32
  stage : Int32
  haveMine : Int32
  mineStored : Int32
  peerSeen : Int32
  seq : Int64
  gets : Int32
  puts : Int32
  claim : Int32
  rdvHolding : Int32
  rdvProven : Int32
  ageGetS : Int32
  agePutS : Int32
  deriving DecidableEq

/-- A call of one of the functions of `struct session_obs` that the service sends on.  A text
is a C string. -/
inductive UiEvent where
  | net (family scope via : Int32) (addr : Bytes)
  | mapping4 (dependent : Int32)
  | netConn (family status : Int32)
  | link (name : Bytes) (has4 has6 : Int32)
  | rendezvous (family : Int32) (addr : Bytes) (ready : Int32)
  | rdvStage (family stage : Int32)
  | mailbox (m : SessionMailbox)
  | peerLink (id state rtt nproven : Int32)
  | token (tok : Bytes)
  | tokenRo (tok : Bytes)
  | peer (id state : Int32) (addr : Bytes)
  | peerRo (id : Int32)
  | peerIdent (id : Int32) (ident : Bytes)
  | reset
  | linkReset
  | netReset (family : Int32)
  | escalate (why : Bytes)
  | escalateClear
  | established
  deriving DecidableEq

/-- The text of an event. -/
def UiEvent.text : UiEvent → Bytes
  | .net _ _ _ addr => addr
  | .link name _ _ => name
  | .rendezvous _ addr _ => addr
  | .token tok => tok
  | .tokenRo tok => tok
  | .peer _ _ addr => addr
  | .peerIdent _ ident => ident
  | .escalate why => why
  | _ => []

/-! ## Lines -/

/-- The size of the buffer of `emitf`. -/
def emitMax : Nat := 512

/-- A line up to its end: a letter, numbers and perhaps a text. -/
def printLine (tag : Char) (numbers : List Int) (text : Option Bytes) : Bytes :=
  ch tag :: (printNumbers numbers ++ (text.map fun t => ch ' ' :: t).getD [])

/-- The numbers of `em_mailbox`, in its order. -/
def SessionMailbox.numbers (m : SessionMailbox) : List Int :=
  [m.engaged.toInt, m.stage.toInt, m.haveMine.toInt, m.mineStored.toInt, m.peerSeen.toInt,
    m.seq.toInt, m.gets.toInt, m.puts.toInt, m.claim.toInt, m.ageGetS.toInt, m.agePutS.toInt,
    m.rdvHolding.toInt, m.rdvProven.toInt]

/-- What the functions of the emitter print up to the end of the line: `em_net`, `em_mapping4`
and the others. -/
def UiEvent.body : UiEvent → Bytes
  | .net f sc v ad => printLine 'N' [f.toInt, sc.toInt, v.toInt] (some ad)
  | .mapping4 d => printLine 'M' [d.toInt] none
  | .netConn f st => printLine 'F' [f.toInt, st.toInt] none
  | .link n h4 h6 => printLine 'I' [h4.toInt, h6.toInt] (some n)
  | .rendezvous f ad rd => printLine 'R' [f.toInt, rd.toInt] (some ad)
  | .rdvStage f st => printLine 'G' [f.toInt, st.toInt] none
  | .mailbox m => printLine 'B' m.numbers none
  | .peerLink id st rtt np => printLine 'K' [id.toInt, st.toInt, rtt.toInt, np.toInt] none
  | .token t => printLine 'T' [] (some t)
  | .tokenRo t => printLine 'U' [] (some t)
  | .peer id s ad => printLine 'P' [id.toInt, s.toInt] (some (if ad = [] then [ch '-'] else ad))
  | .peerRo id => printLine 'O' [id.toInt] none
  | .peerIdent id ident => printLine 'D' [id.toInt] (some ident)
  | .reset => printLine 'X' [] none
  | .linkReset => printLine 'J' [] none
  | .netReset f => printLine 'Y' [f.toInt] none
  | .escalate w => printLine 'E' [] (some w)
  | .escalateClear => printLine 'C' [] none
  | .established => printLine 'L' [] none

/-- `emitf`: the bytes that are queued for an event. -/
def UiEvent.line (e : UiEvent) : Bytes := (e.body ++ [ch '\n']).take (emitMax - 1)

/-- The event's line is whole, and is one line. -/
structure UiEvent.Fits (e : UiEvent) : Prop where
  length_lt : e.body.length + 1 < emitMax
  oneLine : ch '\n' ∉ e.text

theorem UiEvent.Fits.line_eq {e : UiEvent} (h : e.Fits) : e.line = e.body ++ [ch '\n'] := by
  have hlen := h.length_lt
  rw [line, List.take_of_length_le]
  rw [List.length_append, List.length_singleton]
  omega

/-! ## Reading them -/

/-- A number of a line as the `int` it is converted to. -/
def cint (x : Int) : Int32 := Int32.ofInt x

/-- `sscanf` with these conversions. -/
def readNumbers (cs : List NumConv) (s : Bytes) : Option (List Int) :=
  (scanNumbers cs s).map Prod.fst

/-- `sscanf` with these conversions and `%<n>[^\n]` behind them: the numbers, and the text if
there is one. -/
def readLine (cs : List NumConv) (n : Nat) (s : Bytes) : Option (List Int × Option Bytes) :=
  (scanNumbers cs s).map fun r =>
    (r.1, ((do scanSpace; scanLine n) r.2).map Prod.fst)

/-- `sscanf` with these conversions and `%<n>s` behind them. -/
def readWord (cs : List NumConv) (n : Nat) (s : Bytes) : Option (List Int × Option Bytes) :=
  (scanNumbers cs s).map fun r => (r.1, (scanWord n r.2).map Prod.fst)

/-- `struct session_mailbox` from the numbers of its line. -/
def SessionMailbox.ofNumbers : List Int → Option SessionMailbox
  | [engaged, stage, haveMine, mineStored, peerSeen, seq, gets, puts, claim, ageGetS, agePutS,
      rdvHolding, rdvProven] =>
      some
        { engaged := cint engaged
          stage := cint stage
          haveMine := cint haveMine
          mineStored := cint mineStored
          peerSeen := cint peerSeen
          seq := Int64.ofInt seq
          gets := cint gets
          puts := cint puts
          claim := cint claim
          rdvHolding := cint rdvHolding
          rdvProven := cint rdvProven
          ageGetS := cint ageGetS
          agePutS := cint agePutS }
  | _ => none

/-- The conversions of the format of a mailbox's line. -/
def mailboxConvs : List NumConv := [.d, .d, .d, .d, .d, .lld, .d, .d, .d, .d, .d, .d, .d]

/-- The lines that `feed` knows. -/
inductive UiTag where
  | net | mapping4 | netConn | link | rendezvous | rdvStage | mailbox | token | tokenRo | peer
  | peerRo | peerLink | peerIdent | escalate | escalateClear | established | linkReset | reset
  | netReset
  deriving DecidableEq

/-- The case of the `switch` that a letter selects. -/
def tagOf (c : UInt8) : Option UiTag :=
  if c = ch 'N' then some .net
  else if c = ch 'M' then some .mapping4
  else if c = ch 'F' then some .netConn
  else if c = ch 'I' then some .link
  else if c = ch 'R' then some .rendezvous
  else if c = ch 'G' then some .rdvStage
  else if c = ch 'B' then some .mailbox
  else if c = ch 'T' then some .token
  else if c = ch 'U' then some .tokenRo
  else if c = ch 'P' then some .peer
  else if c = ch 'O' then some .peerRo
  else if c = ch 'K' then some .peerLink
  else if c = ch 'D' then some .peerIdent
  else if c = ch 'E' then some .escalate
  else if c = ch 'C' then some .escalateClear
  else if c = ch 'L' then some .established
  else if c = ch 'J' then some .linkReset
  else if c = ch 'X' then some .reset
  else if c = ch 'Y' then some .netReset
  else none

/-- A case of the `switch`, on what is behind the letter. -/
def feedTag (s : Bytes) : UiTag → Option UiEvent
  | .net =>
      match readLine [.d, .d, .d] 79 s with
      | some ([a, b, c], some t) => some (.net (cint a) (cint b) (cint c) t)
      | _ => none
  | .mapping4 =>
      match readNumbers [.d] s with
      | some [a] => some (.mapping4 (cint a))
      | _ => none
  | .netConn =>
      match readNumbers [.d, .d] s with
      | some [a, b] => some (.netConn (cint a) (cint b))
      | _ => none
  | .link =>
      match readLine [.d, .d] 31 s with
      | some ([a, b], some t) => some (.link t (cint a) (cint b))
      | _ => none
  | .rendezvous =>
      match readLine [.d, .d] 79 s with
      | some ([a, b], some t) => some (.rendezvous (cint a) t (cint b))
      | _ => none
  | .rdvStage =>
      match readNumbers [.d, .d] s with
      | some [a, b] => some (.rdvStage (cint a) (cint b))
      | _ => none
  | .mailbox => (readNumbers mailboxConvs s).bind fun xs =>
      (SessionMailbox.ofNumbers xs).map .mailbox
  | .token =>
      match readWord [] 255 s with
      | some ([], some t) => some (.token t)
      | _ => none
  | .tokenRo =>
      match readWord [] 255 s with
      | some ([], some t) => some (.tokenRo t)
      | _ => none
  | .peer =>
      -- the text may be missing
      match readLine [.d, .d] 79 s with
      | some ([a, b], t) => some (.peer (cint a) (cint b) (t.getD []))
      | _ => none
  | .peerRo =>
      match readNumbers [.d] s with
      | some [a] => some (.peerRo (cint a))
      | _ => none
  | .peerLink =>
      match readNumbers [.d, .d, .d, .d] s with
      | some [a, b, c, np] => some (.peerLink (cint a) (cint b) (cint c) (cint np))
      | _ => none
  | .peerIdent =>
      match readWord [.d] 15 s with
      | some ([a], some t) => some (.peerIdent (cint a) t)
      | _ => none
  | .escalate =>
      match readLine [] 159 s with
      | some ([], some t) => some (.escalate t)
      | _ => none
  | .escalateClear => some .escalateClear
  | .established => some .established
  | .linkReset => some .linkReset
  | .reset => some .reset
  | .netReset =>
      match readNumbers [.d] s with
      | some [a] => some (.netReset (cint a))
      | _ => none

/-- `feed`: the call of the view that a line asks for, if it asks for one. -/
def feed : Bytes → Option UiEvent
  | [] => none
  | c :: s => (tagOf c).bind (feedTag s)

/-! ## What is heard of an event -/

/-- A text, where there is one. -/
def someText (t : Bytes) : Option Bytes := if t = [] then none else some t

@[simp] theorem someText_getD (t : Bytes) : (someText t).getD [] = t := by
  rw [someText]
  split_ifs with h
  · simp [h]
  · rfl

theorem someText_of_ne {t : Bytes} (h : t ≠ []) : someText t = some t := by
  rw [someText, if_neg h]

/-- What the foreground makes of the line of an event. -/
def heardAs : UiEvent → Option UiEvent
  | .net f sc v ad => (someText (lineText 79 ad)).map fun t => .net f sc v t
  | .link n h4 h6 => (someText (lineText 31 n)).map fun t => .link t h4 h6
  | .rendezvous f ad rd => (someText (lineText 79 ad)).map fun t => .rendezvous f t rd
  | .token t => (someText (wordText 255 t)).map .token
  | .tokenRo t => (someText (wordText 255 t)).map .tokenRo
  | .peer id s ad => some (.peer id s (lineText 79 (if ad = [] then [ch '-'] else ad)))
  | .peerIdent id t => (someText (wordText 15 t)).map fun t => .peerIdent id t
  | .escalate w => (someText (lineText 159 w)).map .escalate
  | e => some e

@[simp] theorem cint_toInt (x : Int32) : cint x.toInt = x := by simp [cint]

@[simp] theorem fits_d (x : Int32) : NumConv.d.Fits x.toInt := ⟨x.le_toInt, x.toInt_lt⟩

@[simp] theorem fits_lld (x : Int64) : NumConv.lld.Fits x.toInt := ⟨x.le_toInt, x.toInt_lt⟩

theorem readNumbers_print {cs : List NumConv} {xs : List Int}
    (h : List.Forall₂ NumConv.Fits cs xs) : readNumbers cs (printNumbers xs) = some xs := by
  have hread := scanNumbers_print h (t := []) (by simp)
  rw [List.append_nil] at hread
  rw [readNumbers, hread]
  rfl

theorem readLine_print {cs : List NumConv} {xs : List Int}
    (h : List.Forall₂ NumConv.Fits cs xs) (n : Nat) {t : Bytes} (ht : ch '\n' ∉ t) :
    readLine cs n (printNumbers xs ++ ch ' ' :: t) = some (xs, someText (lineText n t)) := by
  rw [readLine, scanNumbers_print h (stops_cons.mpr rfl), Option.map_some, scanLine_print ht,
    someText]
  split_ifs <;> rfl

theorem readWord_print {cs : List NumConv} {xs : List Int}
    (h : List.Forall₂ NumConv.Fits cs xs) (n : Nat) (t : Bytes) :
    readWord cs n (printNumbers xs ++ ch ' ' :: t) = some (xs, someText (wordText n t)) := by
  rw [readWord, scanNumbers_print h (stops_cons.mpr rfl), Option.map_some, scanWord_print,
    someText]
  split_ifs <;> rfl

theorem readNumbers_mailbox (m : SessionMailbox) :
    readNumbers mailboxConvs (printNumbers m.numbers) = some m.numbers :=
  readNumbers_print (by simp [mailboxConvs, SessionMailbox.numbers])

theorem ofNumbers_numbers (m : SessionMailbox) :
    SessionMailbox.ofNumbers m.numbers = some m := by
  simp [SessionMailbox.numbers, SessionMailbox.ofNumbers]

/-- The letter of an event's line. -/
theorem feed_printLine {tag : Char} {t : UiTag} (htag : tagOf (ch tag) = some t)
    (numbers : List Int) (text : Option Bytes) :
    feed (printLine tag numbers text) =
      feedTag (printNumbers numbers ++ (text.map fun t => ch ' ' :: t).getD []) t := by
  rw [printLine, feed, htag, Option.bind_some]

/-- A line that is whole is heard as its event. -/
theorem feed_body {e : UiEvent} (h : ch '\n' ∉ e.text) : feed e.body = heardAs e := by
  have int1 (a : Int32) : List.Forall₂ NumConv.Fits [.d] [a.toInt] := by simp
  have int2 (a b : Int32) : List.Forall₂ NumConv.Fits [.d, .d] [a.toInt, b.toInt] := by simp
  have int3 (a b c : Int32) :
      List.Forall₂ NumConv.Fits [.d, .d, .d] [a.toInt, b.toInt, c.toInt] := by simp
  have int4 (a b c d : Int32) :
      List.Forall₂ NumConv.Fits [.d, .d, .d, .d] [a.toInt, b.toInt, c.toInt, d.toInt] := by simp
  cases e with
  | net f sc v ad =>
      have hread := readLine_print (int3 f sc v) 79 h
      rw [UiEvent.body, feed_printLine (t := .net) rfl]
      simp only [feedTag, heardAs, Option.map_some, Option.getD_some, UiEvent.text] at hread ⊢
      rw [hread]
      cases someText (lineText 79 ad) <;> simp
  | mapping4 d =>
      rw [UiEvent.body, feed_printLine (t := .mapping4) rfl]
      simp [feedTag, heardAs, readNumbers_print (int1 d)]
  | netConn f st =>
      rw [UiEvent.body, feed_printLine (t := .netConn) rfl]
      simp [feedTag, heardAs, readNumbers_print (int2 f st)]
  | link n h4 h6 =>
      have hread := readLine_print (int2 h4 h6) 31 h
      rw [UiEvent.body, feed_printLine (t := .link) rfl]
      simp only [feedTag, heardAs, Option.map_some, Option.getD_some, UiEvent.text] at hread ⊢
      rw [hread]
      cases someText (lineText 31 n) <;> simp
  | rendezvous f ad rd =>
      have hread := readLine_print (int2 f rd) 79 h
      rw [UiEvent.body, feed_printLine (t := .rendezvous) rfl]
      simp only [feedTag, heardAs, Option.map_some, Option.getD_some, UiEvent.text] at hread ⊢
      rw [hread]
      cases someText (lineText 79 ad) <;> simp
  | rdvStage f st =>
      rw [UiEvent.body, feed_printLine (t := .rdvStage) rfl]
      simp [feedTag, heardAs, readNumbers_print (int2 f st)]
  | mailbox m =>
      rw [UiEvent.body, feed_printLine (t := .mailbox) rfl]
      simp [feedTag, heardAs, readNumbers_mailbox, ofNumbers_numbers]
  | peerLink id st rtt np =>
      rw [UiEvent.body, feed_printLine (t := .peerLink) rfl]
      simp [feedTag, heardAs, readNumbers_print (int4 id st rtt np)]
  | token tok =>
      have hread := readWord_print .nil 255 tok
      rw [UiEvent.body, feed_printLine (t := .token) rfl]
      simp only [feedTag, heardAs, Option.map_some, Option.getD_some]
      rw [hread]
      cases someText (wordText 255 tok) <;> simp
  | tokenRo tok =>
      have hread := readWord_print .nil 255 tok
      rw [UiEvent.body, feed_printLine (t := .tokenRo) rfl]
      simp only [feedTag, heardAs, Option.map_some, Option.getD_some]
      rw [hread]
      cases someText (wordText 255 tok) <;> simp
  | peer id s ad =>
      have hdash : ch '\n' ∉ (if ad = [] then [ch '-'] else ad) := by
        split_ifs
        · decide
        · exact h
      have hread := readLine_print (int2 id s) 79 hdash
      rw [UiEvent.body, feed_printLine (t := .peer) rfl]
      simp only [feedTag, heardAs, Option.map_some, Option.getD_some]
      rw [hread]
      simp
  | peerRo id =>
      rw [UiEvent.body, feed_printLine (t := .peerRo) rfl]
      simp [feedTag, heardAs, readNumbers_print (int1 id)]
  | peerIdent id ident =>
      have hread := readWord_print (int1 id) 15 ident
      rw [UiEvent.body, feed_printLine (t := .peerIdent) rfl]
      simp only [feedTag, heardAs, Option.map_some, Option.getD_some]
      rw [hread]
      cases someText (wordText 15 ident) <;> simp
  | reset => rfl
  | linkReset => rfl
  | netReset f =>
      rw [UiEvent.body, feed_printLine (t := .netReset) rfl]
      simp [feedTag, heardAs, readNumbers_print (int1 f)]
  | escalate why =>
      have hread := readLine_print .nil 159 h
      rw [UiEvent.body, feed_printLine (t := .escalate) rfl]
      simp only [feedTag, heardAs, Option.map_some, Option.getD_some, UiEvent.text] at hread ⊢
      rw [hread]
      cases someText (lineText 159 why) <;> simp
  | escalateClear => rfl
  | established => rfl

/-! ## One line -/

theorem newline_not_mem_printLine {tag : Char} (htag : ch '\n' ≠ ch tag) (numbers : List Int)
    {text : Option Bytes} (htext : ∀ t ∈ text, ch '\n' ∉ t) :
    ch '\n' ∉ printLine tag numbers text := by
  have hblank : ch '\n' ≠ ch ' ' := by decide
  have hnumbers : ch '\n' ∉ printNumbers numbers := by
    rw [printNumbers, List.mem_flatMap]
    rintro ⟨x, -, hmem⟩
    rcases List.mem_cons.mp hmem with hmem | hmem
    · exact hblank hmem
    · have hspace := not_space_signed x _ hmem
      exact absurd hspace (by decide)
  rw [printLine, List.mem_cons, List.mem_append, not_or, not_or]
  refine ⟨htag, hnumbers, ?_⟩
  cases text with
  | none => simp
  | some t => simpa [hblank] using htext t rfl

theorem newline_not_mem_body {e : UiEvent} (h : ch '\n' ∉ e.text) : ch '\n' ∉ e.body := by
  cases e with
  | peer id s ad =>
      refine newline_not_mem_printLine (by decide) _ ?_
      simp only [Option.mem_some_iff, forall_eq']
      split_ifs
      · decide
      · exact h
  | net | link | rendezvous | token | tokenRo | peerIdent | escalate =>
      refine newline_not_mem_printLine (by decide) _ ?_
      simpa [UiEvent.text] using h
  | mapping4 | netConn | rdvStage | mailbox | peerLink | peerRo | reset | linkReset | netReset
  | escalateClear | established => exact newline_not_mem_printLine (by decide) _ (by simp)

/-! ## The length of a line -/

theorem length_signed {x : Int} {k : Nat} (hk : 0 < k) (hx : x.natAbs < 10 ^ k) :
    (signed x).length ≤ k + 1 := by
  have hlen := length_decimal_le hk hx
  rw [signed]
  split_ifs
  · rw [List.length_cons]
    omega
  · omega

theorem length_signed_d (x : Int32) : (signed x.toInt).length ≤ 11 := by
  have hlow : -2 ^ 31 ≤ x.toInt := x.le_toInt
  have hhigh : x.toInt < 2 ^ 31 := x.toInt_lt
  exact length_signed (k := 10) (by omega) (by omega)

theorem length_signed_lld (x : Int64) : (signed x.toInt).length ≤ 20 := by
  have hlow : -2 ^ 63 ≤ x.toInt := x.le_toInt
  have hhigh : x.toInt < 2 ^ 63 := x.toInt_lt
  exact length_signed (k := 19) (by omega) (by omega)

theorem length_printNumbers {xs : List Int} (h : ∀ x ∈ xs, (signed x).length ≤ 20) :
    (printNumbers xs).length ≤ 21 * xs.length := by
  induction xs with
  | nil => simp [printNumbers]
  | cons x xs ih =>
      obtain ⟨hx, hxs⟩ := List.forall_mem_cons.mp h
      have hrest := ih hxs
      simp only [printNumbers, List.flatMap_cons, List.length_append, List.length_cons] at hrest ⊢
      omega

theorem length_printLine {tag : Char} {numbers : List Int} {text : Option Bytes}
    (h : ∀ x ∈ numbers, (signed x).length ≤ 20) :
    (printLine tag numbers text).length ≤ 21 * numbers.length + (text.getD []).length + 2 := by
  have hnumbers := length_printNumbers h
  rw [printLine, List.length_cons, List.length_append]
  cases text with
  | none => simp; omega
  | some t => simp; omega

/-- An event whose text is within 255 bytes has a whole line. -/
theorem fits_of_text {e : UiEvent} (hlen : e.text.length < 256) (hline : ch '\n' ∉ e.text) :
    e.Fits where
  oneLine := hline
  length_lt := by
    have hmax : emitMax = 512 := rfl
    have hd (x : Int32) : (signed x.toInt).length ≤ 20 := by
      have := length_signed_d x
      omega
    have hlld (x : Int64) : (signed x.toInt).length ≤ 20 := length_signed_lld x
    cases e with
    | net f sc v ad | link ad f sc | rendezvous f ad sc | token ad | tokenRo ad | peerIdent f ad
    | escalate ad =>
        simp only [UiEvent.text] at hlen
        refine lt_of_le_of_lt (Nat.add_le_add_right (length_printLine (by simp [hd])) 1) ?_
        simp
        omega
    | peer id st ad =>
        simp only [UiEvent.text] at hlen
        refine lt_of_le_of_lt (Nat.add_le_add_right (length_printLine (by simp [hd])) 1) ?_
        have htext : (if ad = [] then [ch '-'] else ad).length < 256 := by
          split_ifs
          · simp
          · exact hlen
        simp
        omega
    | mailbox m =>
        refine lt_of_le_of_lt (Nat.add_le_add_right
          (length_printLine (by simp [SessionMailbox.numbers, hd, hlld])) 1) ?_
        simp [SessionMailbox.numbers, hmax]
    | mapping4 | netConn | rdvStage | peerLink | peerRo | reset | linkReset | netReset
    | escalateClear | established =>
        refine lt_of_le_of_lt (Nat.add_le_add_right (length_printLine (by simp [hd])) 1) ?_
        simp [hmax]

end Ui
end Comrade
