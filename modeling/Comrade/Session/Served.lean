import Comrade.Lib.Recency
import Comrade.Lib.Recent
import Comrade.Session.Fresh

/-!
# The claimants served

`claimlog.c`: a ring of the claimants this host has served, each with the password of the
attempt it was served from.  A claimant that is in it keeps its place when it is noted
again, and one that is not takes the place of the claimant let in first.

* `ServedLog` is the ring with the notes that led to it.
* `Kept` is what holds of the two after any run of notes: the ring has the claimants let in
  last, and each has the password of its latest note.
* `served_recent_iff`: the ring has the claimants noted last, along a run of notes, exactly
  when no note of the run pushes out a claimant that was noted after another that stays.
-/

namespace Comrade
namespace Session

open Lib Rdv

/-! ## The ring and its notes -/

/-- `CLAIM_UFRAG_LEN`. -/
def claimUfragLen : Nat := 40

/-- `CLAIM_PWD_LEN`. -/
def claimPwdLen : Nat := 40

/-- `claim_served_note`, with what its buffers keep of the two texts. -/
def claimServedKeep (l : ClaimServed) (ufrag pwd : Bytes) : ClaimServed :=
  if ufrag = [] then l
  else
    match servedFind l ufrag with
    | some i => { l with pwd := Function.update l.pwd i (pwd.take (claimPwdLen - 1)) }
    | none =>
        { ufrag := Function.update l.ufrag l.next (ufrag.take (claimUfragLen - 1))
          pwd := Function.update l.pwd l.next (pwd.take (claimPwdLen - 1))
          next := (l.next + 1) % claimServedMax }

/-- Texts that fit are kept whole. -/
theorem claimServedKeep_eq (l : ClaimServed) {ufrag pwd : Bytes}
    (hufrag : ufrag.length < claimUfragLen) (hpwd : pwd.length < claimPwdLen) :
    claimServedKeep l ufrag pwd = claimServedNote l ufrag pwd := by
  unfold claimServedKeep
  rw [List.take_of_length_le (Nat.le_sub_one_of_lt hufrag),
    List.take_of_length_le (Nat.le_sub_one_of_lt hpwd)]
  rfl

/-- A claimant and the password it was served from, both there and within their buffers. -/
structure ServedClaim where
  ufrag : Bytes
  pwd : Bytes
  ufrag_ne : ufrag ≠ []
  ufrag_fits : ufrag.length < claimUfragLen
  pwd_ne : pwd ≠ []
  pwd_fits : pwd.length < claimPwdLen

/-- The ring, with the notes that led to it, oldest first. -/
structure ServedLog where
  served : ClaimServed
  noted : List ServedClaim

/-- The ring of a session that begins, cleared with it. -/
def ServedLog.start : ServedLog where
  served := { ufrag := fun _ => [], pwd := fun _ => [], next := 0 }
  noted := []

/-- One call of `claim_served_note`. -/
def ServedLog.note (log : ServedLog) (n : ServedClaim) : ServedLog where
  served := claimServedKeep log.served n.ufrag n.pwd
  noted := log.noted ++ [n]

/-- The claimants noted, oldest first. -/
def ServedLog.claimants (log : ServedLog) : List Bytes := log.noted.map ServedClaim.ufrag

/-- The password of the latest note of the claimant. -/
def latestPwd (noted : List ServedClaim) (ufrag : Bytes) : Option Bytes :=
  (noted.reverse.find? fun n => n.ufrag == ufrag).map ServedClaim.pwd

theorem latestPwd_concat (noted : List ServedClaim) (n : ServedClaim) (u : Bytes) :
    latestPwd (noted ++ [n]) u = if n.ufrag = u then some n.pwd else latestPwd noted u := by
  unfold latestPwd
  rw [List.reverse_append, List.reverse_singleton, List.singleton_append, List.find?_cons]
  by_cases hu : n.ufrag = u
  · simp [hu]
  · rw [if_neg hu, beq_false_of_ne hu]

/-- The claimants of the ring are the ones noted last, with their latest passwords. -/
structure RemembersRecent (log : ServedLog) : Prop where
  has : ∀ u, claimServedHas log.served u = true ↔ u ∈ recent claimServedMax log.claimants
  made : ∀ u p, claimServedMade log.served u p = true ↔
    u ∈ recent claimServedMax log.claimants ∧ latestPwd log.noted u = some p

/-- The claimant that the note pushes out, if any, was noted before all that stay. -/
def PushesOldest (log : ServedLog) (n : ServedClaim) : Prop :=
  claimServedHas log.served n.ufrag = false →
    log.served.ufrag log.served.next ≠ [] →
      ∀ b, claimServedHas log.served b = true → b ≠ log.served.ufrag log.served.next →
        Later log.claimants (log.served.ufrag log.served.next) b

/-! ## Finding a claimant -/

theorem servedFind_eq_some {l : ClaimServed} {u : Bytes} {i : Nat} (h : servedFind l u = some i) :
    u ≠ [] ∧ i < claimServedMax ∧ l.ufrag i = u := by
  unfold servedFind at h
  split_ifs at h with hu
  refine ⟨hu, List.mem_range.mp (List.mem_of_find?_eq_some h), ?_⟩
  simpa using List.find?_some h

theorem servedFind_eq_none {l : ClaimServed} {u : Bytes} (hu : u ≠ []) (h : servedFind l u = none) :
    ∀ i < claimServedMax, l.ufrag i ≠ u := by
  rw [servedFind, if_neg hu, List.find?_eq_none] at h
  intro i hi
  simpa using h i (List.mem_range.mpr hi)

theorem claimServedHas_iff {l : ClaimServed} {u : Bytes} :
    claimServedHas l u = true ↔ u ≠ [] ∧ ∃ i < claimServedMax, l.ufrag i = u := by
  unfold claimServedHas
  constructor
  · intro h
    obtain ⟨i, hi⟩ := Option.isSome_iff_exists.mp h
    obtain ⟨hu, hlt, hat⟩ := servedFind_eq_some hi
    exact ⟨hu, i, hlt, hat⟩
  · rintro ⟨hu, i, hlt, hat⟩
    by_contra hnone
    rw [Bool.not_eq_true, Option.isSome_eq_false_iff, Option.isNone_iff_eq_none] at hnone
    exact servedFind_eq_none hu hnone i hlt hat

/-! ## What the ring keeps -/

/-- The places of the ring in order. -/
def ClaimServed.ring (l : ClaimServed) : Vector Bytes claimServedMax := .ofFn fun i => l.ufrag i

/-- The claimants let in, the latest first. -/
def ServedLog.letIn (log : ServedLog) : List Bytes := admitted claimServedMax log.claimants

/-- What holds of the ring after any notes. -/
structure Kept (log : ServedLog) : Prop where
  next : log.served.next = log.letIn.length % claimServedMax
  ring : RingHolds log.served.ring log.letIn.reverse
  free : ∀ i, log.letIn.length ≤ i → log.served.ufrag i = []
  named : [] ∉ log.letIn
  apart : ∀ i < claimServedMax, ∀ j < claimServedMax, log.served.ufrag i = log.served.ufrag j →
    log.served.ufrag i ≠ [] → i = j
  pwd : ∀ i < claimServedMax, log.served.ufrag i ≠ [] →
    latestPwd log.noted (log.served.ufrag i) = some (log.served.pwd i)

theorem kept_start : Kept ServedLog.start where
  next := rfl
  ring := ringHolds_nil _
  free := fun _ _ => rfl
  named := List.not_mem_nil
  apart := fun _ _ _ _ _ hne => absurd rfl hne
  pwd := fun _ _ hne => absurd rfl hne

/-- The ring has the claimants let in last. -/
theorem Kept.has_iff {log : ServedLog} (h : Kept log) (u : Bytes) :
    claimServedHas log.served u = true ↔ u ∈ log.letIn.take claimServedMax := by
  have hring := h.ring.mem_take_iff (x := u)
  rw [List.length_reverse, List.rtake_eq_reverse_take_reverse, List.reverse_reverse,
    List.mem_reverse, List.mem_iff_getElem?] at hring
  simp only [List.getElem?_take, Vector.getElem?_toList] at hring
  rw [claimServedHas_iff]
  constructor
  · rintro ⟨hu, i, hlt, rfl⟩
    refine hring.mp ⟨i, ?_⟩
    have hused : i < log.letIn.length := by
      by_contra hfree
      exact hu (h.free i (by omega))
    rw [if_pos (by omega), ClaimServed.ring, Vector.getElem?_ofFn, dif_pos hlt]
  · intro hmem
    obtain ⟨i, hi⟩ := hring.mpr hmem
    split_ifs at hi with hlt
    rw [ClaimServed.ring, Vector.getElem?_ofFn, dif_pos (show i < claimServedMax by omega)] at hi
    cases hi
    refine ⟨fun hempty => h.named ?_, i, by omega, rfl⟩
    rw [← hempty]
    exact List.mem_of_mem_take hmem

/-- The claimant whose place is next is the one let in first of those held. -/
theorem Kept.next_ufrag {log : ServedLog} (h : Kept log) :
    log.served.ufrag log.served.next = (log.letIn[claimServedMax - 1]?).getD [] := by
  have hmax : claimServedMax = 8 := rfl
  rcases Nat.lt_or_ge log.letIn.length claimServedMax with hroom | hfull
  · rw [List.getElem?_eq_none (by omega), Option.getD_none]
    apply h.free
    rw [h.next, Nat.mod_eq_of_lt hroom]
  · have hlast := h.ring (log.letIn.length - claimServedMax)
      (by rw [List.length_reverse]; omega) (by rw [List.length_reverse]; omega)
    rw [← Nat.mod_eq_sub_mod hfull, ← h.next, List.getElem?_reverse (by omega),
      show log.letIn.length - 1 - (log.letIn.length - claimServedMax) = claimServedMax - 1 by omega,
      ClaimServed.ring, Vector.getElem?_ofFn] at hlast
    rw [← hlast, dif_pos]
    · rfl
    · rw [h.next]
      exact Nat.mod_lt _ (by omega)

theorem ClaimServed.ring_update (ufrag : Nat → Bytes) (pwd pwd' : Nat → Bytes) (i : Nat)
    (next next' : Nat) (u : Bytes) :
    ClaimServed.ring { ufrag := Function.update ufrag i u, pwd := pwd', next := next' } =
      (ClaimServed.ring { ufrag, pwd, next }).setIfInBounds i u := by
  ext j hj
  simp only [ClaimServed.ring, Vector.getElem_ofFn, Vector.getElem_setIfInBounds,
    Function.update_apply]
  by_cases hij : i = j
  · rw [if_pos hij, if_pos hij.symm]
  · rw [if_neg hij, if_neg (Ne.symm hij)]

/-- A claimant that is there keeps its place. -/
theorem ServedLog.note_of_some {log : ServedLog} {n : ServedClaim} {i : Nat}
    (h : servedFind log.served n.ufrag = some i) :
    (log.note n).served =
      { ufrag := log.served.ufrag
        pwd := Function.update log.served.pwd i n.pwd
        next := log.served.next } := by
  have hkeep := claimServedKeep_eq log.served n.ufrag_fits n.pwd_fits
  rw [claimServedNote, if_neg n.ufrag_ne, h] at hkeep
  exact hkeep

/-- A claimant that is not takes the next place. -/
theorem ServedLog.note_of_none {log : ServedLog} {n : ServedClaim}
    (h : servedFind log.served n.ufrag = none) :
    (log.note n).served =
      { ufrag := Function.update log.served.ufrag log.served.next n.ufrag
        pwd := Function.update log.served.pwd log.served.next n.pwd
        next := (log.served.next + 1) % claimServedMax } := by
  have hkeep := claimServedKeep_eq log.served n.ufrag_fits n.pwd_fits
  rw [claimServedNote, if_neg n.ufrag_ne, h] at hkeep
  exact hkeep

theorem ServedLog.letIn_note (log : ServedLog) (n : ServedClaim) :
    (log.note n).letIn = admitNext claimServedMax log.letIn n.ufrag := by
  simp [ServedLog.letIn, ServedLog.claimants, ServedLog.note, admitted_concat]

/-- One more note keeps it all. -/
theorem Kept.note {log : ServedLog} (h : Kept log) (n : ServedClaim) : Kept (log.note n) := by
  have hletIn := log.letIn_note n
  have hhas := h.has_iff n.ufrag
  cases hfind : servedFind log.served n.ufrag with
  | some i =>
      have hkeep := ServedLog.note_of_some hfind
      rw [admitNext, if_pos (hhas.mp (by rw [claimServedHas, hfind]; rfl))] at hletIn
      obtain ⟨-, hlt, hat⟩ := servedFind_eq_some hfind
      refine ⟨?_, ?_, ?_, ?_, ?_, ?_⟩
      · rw [hkeep, hletIn]
        exact h.next
      · rw [hkeep, hletIn]
        exact h.ring
      · rw [hkeep, hletIn]
        exact h.free
      · rw [hletIn]
        exact h.named
      · rw [hkeep]
        exact h.apart
      · intro j hj hne
        rw [hkeep] at hne ⊢
        dsimp only at hne ⊢
        rw [show (log.note n).noted = log.noted ++ [n] from rfl, latestPwd_concat]
        by_cases hij : j = i
        · subst hij
          rw [if_pos hat.symm, Function.update_self]
        · have hother : n.ufrag ≠ log.served.ufrag j := fun heq =>
            hij (h.apart j hj i hlt (by rw [hat, heq]) hne)
          rw [if_neg hother, Function.update_of_ne hij]
          exact h.pwd j hj hne
  | none =>
      have hkeep := ServedLog.note_of_none hfind
      have hnot : n.ufrag ∉ log.letIn.take claimServedMax := by
        rw [← hhas, claimServedHas, hfind]
        exact Bool.false_ne_true
      rw [admitNext, if_neg hnot] at hletIn
      have hnone := servedFind_eq_none n.ufrag_ne hfind
      refine ⟨?_, ?_, ?_, ?_, ?_, ?_⟩
      · rw [hkeep, hletIn, List.length_cons, h.next, Nat.mod_add_mod]
      · rw [hkeep, hletIn, List.reverse_cons]
        have hpush := h.ring.push (by decide) n.ufrag
        rw [List.length_reverse, ← h.next] at hpush
        exact (ClaimServed.ring_update ..).symm ▸ hpush
      · intro i hi
        rw [hletIn, List.length_cons] at hi
        have hle : log.served.next ≤ log.letIn.length := h.next ▸ Nat.mod_le _ _
        rw [hkeep]
        exact (Function.update_of_ne (by omega) _ _).trans (h.free i (by omega))
      · rw [hletIn, List.mem_cons, not_or]
        exact ⟨n.ufrag_ne.symm, h.named⟩
      · intro i hi j hj heq hne
        rw [hkeep] at heq hne
        simp only [Function.update_apply] at heq hne
        split_ifs at heq hne with hin hjn hjn
        · rw [hin, hjn]
        · exact absurd heq.symm (hnone j hj)
        · exact absurd heq (hnone i hi)
        · exact h.apart i hi j hj heq hne
      · intro i hi hne
        rw [hkeep] at hne ⊢
        dsimp only at hne ⊢
        rw [show (log.note n).noted = log.noted ++ [n] from rfl, latestPwd_concat]
        by_cases hin : i = log.served.next
        · rw [hin, Function.update_self, Function.update_self, if_pos rfl]
        · rw [Function.update_of_ne hin] at hne
          rw [Function.update_of_ne hin, Function.update_of_ne hin,
            if_neg (hnone i hi).symm]
          exact h.pwd i hi hne

/-- A password that a claimant is remembered with is one that was noted. -/
theorem latestPwd_ne_nil {noted : List ServedClaim} {u p : Bytes}
    (h : latestPwd noted u = some p) : p ≠ [] := by
  unfold latestPwd at h
  obtain ⟨n, -, rfl⟩ := Option.map_eq_some_iff.mp h
  exact n.pwd_ne

/-- The password of a claimant in the ring is that of its latest note. -/
theorem Kept.made_iff {log : ServedLog} (h : Kept log) (u p : Bytes) :
    claimServedMade log.served u p = true ↔
      claimServedHas log.served u = true ∧ latestPwd log.noted u = some p := by
  unfold claimServedMade claimServedHas
  cases hfind : servedFind log.served u with
  | none => simp
  | some i =>
      obtain ⟨hu, hlt, rfl⟩ := servedFind_eq_some hfind
      have hpwd := h.pwd i hlt hu
      rw [hpwd, Option.any_some, Option.isSome_some, Option.some_inj]
      have hne : log.served.pwd i ≠ [] := latestPwd_ne_nil hpwd
      constructor
      · intro hmade
        rw [claimMade, Bool.and_eq_true, beq_iff_eq] at hmade
        exact ⟨rfl, hmade.2⟩
      · rintro ⟨-, rfl⟩
        simp [claimMade, hne]

/-- The ring remembers the recent ones when those let in last are those noted last. -/
theorem Kept.remembersRecent_iff {log : ServedLog} (h : Kept log) :
    RemembersRecent log ↔
      ∀ u, u ∈ log.letIn.take claimServedMax ↔ u ∈ recent claimServedMax log.claimants := by
  constructor
  · intro hlog u
    rw [← h.has_iff]
    exact hlog.has u
  · intro hsame
    refine ⟨fun u => (h.has_iff u).trans (hsame u), ?_⟩
    intro u p
    rw [h.made_iff, h.has_iff, hsame]

/-! ## Every run -/

/-- One more note: what the ring has stays what was noted last, where the claimant that is
pushed out was noted before all that stay. -/
theorem remembersRecent_note_iff {log : ServedLog} (h : Kept log) (hlog : RemembersRecent log)
    (n : ServedClaim) : RemembersRecent (log.note n) ↔ PushesOldest log n := by
  have hclaimants : (log.note n).claimants = log.claimants ++ [n.ufrag] := by
    simp [ServedLog.claimants, ServedLog.note]
  have hstep := mem_admit_iff_mem_recent (x := n.ufrag) (show 0 < claimServedMax by decide)
    (nodup_take_admitted claimServedMax log.claimants) (h.remembersRecent_iff.mp hlog)
  rw [(h.note n).remembersRecent_iff, log.letIn_note, hclaimants]
  refine hstep.trans ?_
  rw [show admitted claimServedMax log.claimants = log.letIn from rfl, PushesOldest,
    h.next_ufrag, ← Bool.not_eq_true, h.has_iff]
  simp only [h.has_iff]
  refine imp_congr_right fun _ => ?_
  cases hlast : log.letIn[claimServedMax - 1]? with
  | none => simp
  | some a =>
      have ha : a ≠ [] := by
        rintro rfl
        exact h.named (List.mem_of_getElem? hlast)
      simp [ha]

/-- Along a run of notes the ring has at each point the claimants noted last, each with the
password of its latest note, if and only if no note of the run pushes out a claimant that
was noted after another that stays. -/
theorem served_recent_iff (notes : List ServedClaim) :
    (∀ pre, pre <+: notes → RemembersRecent (run ServedLog.note ServedLog.start pre)) ↔
      EveryStep ServedLog.note PushesOldest ServedLog.start notes := by
  apply forall_prefix_iff_everyStep
  · rw [run_nil, kept_start.remembersRecent_iff]
    intro u
    simp [ServedLog.letIn, ServedLog.claimants, ServedLog.start, admitted, recent]
  · intro pre n _ hpre
    rw [run_concat]
    exact remembersRecent_note_iff (run_invariant (fun _ n hk => hk.note n) kept_start pre) hpre n

/-- Eight claimants are served, the first comes back, and a ninth joins. -/
def returnNotes : List ServedClaim :=
  let note := fun (u : Char) (p : Char) => ServedClaim.mk (ascii [u]) (ascii [p])
    (by simp [ascii]) (by simp [ascii, claimUfragLen]) (by simp [ascii])
    (by simp [ascii, claimPwdLen])
  [note 'a' '1', note 'b' '1', note 'c' '1', note 'd' '1', note 'e' '1', note 'f' '1',
    note 'g' '1', note 'h' '1', note 'a' '2', note 'i' '1']

/-- The claimant that has just come back is the one forgotten: it is among those noted last
and the ring does not have it. -/
theorem served_returned_forgotten :
    ¬RemembersRecent (run ServedLog.note ServedLog.start returnNotes) := by
  intro h
  have hrecent : ascii ['a'] ∈
      recent claimServedMax (run ServedLog.note ServedLog.start returnNotes).claimants := by
    decide
  have hgone : claimServedHas (run ServedLog.note ServedLog.start returnNotes).served
      (ascii ['a']) = false := by
    decide
  rw [(h.has _).mpr hrecent] at hgone
  cases hgone

end Session
end Comrade
