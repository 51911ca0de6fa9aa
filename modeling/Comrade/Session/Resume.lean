import Comrade.Session.Places

/-!
# The punches that resume a worker

A claimant that comes back to the worker that serves it is punched at anew, and the worker
counts the punches in flight that resume it, since its reaping is held off while any
remains.

* `ResumeInv` is what every step keeps up: what a punch resumes is a running worker of its
  claimant, and every connection in use counts the punches that resume it.  Each of the
  relations that say what a call does to the places has its rule for it.
* `resume_count` is the result over every run.
-/

namespace Comrade
namespace Session

open Lib Rdv

/-- The number of punches in flight that resume the connection. -/
def resumes (s : HostSess) (t : ConnId) : Nat := slotCount (resumeOf s) fun o => o == some t

/-- What every step keeps up. -/
structure ResumeInv (s : HostSess) : Prop where
  once : PlacesOnce s
  target : ∀ i t, resumeOf s i = some t → Running s t
  whose : ∀ i c t, s.punching i = some c → (s.conn c).punchResume = some t →
    (s.conn t).claimUfrag = (s.conn c).claimUfrag ∧ (s.conn c).claimUfrag ≠ []
  count : ∀ c, Live s c → (s.conn c).resumePending = resumes s c
  nonneg : ∀ c, 0 ≤ (s.conn c).resumePending

/-- Nobody resumes a connection that no worker runs on. -/
theorem ResumeInv.resumes_eq_zero {s : HostSess} (h : ResumeInv s) {c : ConnId}
    (hc : ¬Running s c) : resumes s c = 0 := by
  unfold resumes slotCount
  rw [Finset.card_eq_zero, Finset.filter_eq_empty_iff]
  intro i _ hi
  exact hc (h.target i c (by simpa using hi))

/-- A connection that a punch stands on counts no resumption. -/
theorem ResumeInv.pending_of_punch {s : HostSess} (h : ResumeInv s) {i : Fin hostMaxWorkers}
    {c : ConnId} (hi : s.punching i = some c) : (s.conn c).resumePending = 0 := by
  have hstand : placeOf s (.punch i) = some c := hi
  rw [h.count c ⟨_, hstand⟩, h.resumes_eq_zero]
  · rfl
  · rintro ⟨j, hj⟩
    have heq := h.once (.worker j) (.punch i) c hj hstand
    cases heq

/-- The connection of a punch that is gone stands nowhere. -/
theorem ResumeInv.not_live_of_dropped {s g : HostSess} (h : ResumeInv s)
    {i : Fin hostMaxWorkers} {c : ConnId} (hdrop : Dropped s i g) (hi : s.punching i = some c) :
    ¬Live g c := by
  rintro ⟨r, hr⟩
  obtain ⟨hne, hold⟩ := hdrop.sub r c hr
  exact hne (h.once r (.punch i) c hold hi)

/-! ## A rule for each relation -/

theorem ResumeInv.of_same {s s' : HostSess} (h : ResumeInv s) (hs : SamePlaces s s') :
    ResumeInv s' where
  once := by
    unfold PlacesOnce
    rw [hs.place]
    exact h.once
  target i t ht := by
    unfold Running
    rw [hs.resumeOf_eq] at ht
    rw [hs.place]
    exact h.target i t ht
  whose i c t hi ht := by
    rw [hs.punching] at hi
    rw [hs.resume] at ht
    rw [hs.ufrag, hs.ufrag]
    exact h.whose i c t hi ht
  count c hc := by
    unfold Live at hc
    rw [hs.place] at hc
    unfold resumes
    rw [hs.pending, hs.resumeOf_eq]
    exact h.count c hc
  nonneg c := by
    rw [hs.pending]
    exact h.nonneg c

theorem Dropped.inv {s s' : HostSess} {i : Fin hostMaxWorkers} (h : Dropped s i s')
    (hs : ResumeInv s) : ResumeInv s' := by
  have hcount : ∀ c, resumes s' c + (if resumeOf s i = some c then 1 else 0) = resumes s c := by
    intro c
    have hupdate := slotCount_update (resumeOf s) (fun o => o == some c) i none
    rw [← h.resumeOf_eq] at hupdate
    simpa [resumes] using hupdate
  refine ⟨?_, ?_, ?_, ?_, ?_⟩
  · exact hs.once.of_sub fun r c hc => (h.sub r c hc).2
  · intro j t ht
    rw [h.resumeOf_eq] at ht
    have hj : j ≠ i := by
      rintro rfl
      rw [Function.update_self] at ht
      cases ht
    rw [Function.update_of_ne hj] at ht
    obtain ⟨k, hk⟩ := hs.target j t ht
    exact ⟨k, by rw [h.place (.worker k) (by simp)]; exact hk⟩
  · intro j c t hj ht
    rw [h.resume] at ht
    rw [h.ufrag, h.ufrag]
    exact hs.whose j c t (h.sub (.punch j) c hj).2 ht
  · rintro c ⟨r, hr⟩
    have hlive := hs.count c ⟨r, (h.sub r c hr).2⟩
    have hnow := hcount c
    rw [h.pending, hlive]
    split_ifs at hnow ⊢ <;> omega
  · intro c
    have hold := hs.nonneg c
    rw [h.pending]
    split_ifs with ht
    · -- the worker that loses a punch counted it
      have hlive := hs.count c (hs.target i c ht).live
      have hnow := hcount c
      rw [if_pos ht] at hnow
      omega
    · omega

/-- What a punch is taken to resume is a running worker of its claimant. -/
theorem Taken.inv {s s' : HostSess} {i : Fin hostMaxWorkers} {pc : ConnId}
    {whom : Option ConnId} {cu : Bytes} (h : Taken s i pc whom cu s') (hs : ResumeInv s)
    (hcu : cu ≠ [])
    (htarget : ∀ t, whom = some t → Running s t ∧ (s.conn t).claimUfrag = cu) :
    ResumeInv s' := by
  have hworker : ∀ t, Running s t → Running s' t ∧ t ≠ pc := by
    rintro t ⟨j, hj⟩
    refine ⟨⟨j, ?_⟩, h.ne hs.once (by simp) hj⟩
    rw [h.place (.worker j) (by simp) (by simp)]
    exact hj
  have hcount : ∀ c, resumes s' c = resumes s c + if whom = some c then 1 else 0 := by
    intro c
    have hupdate := slotCount_update (resumeOf s) (fun o => o == some c) i whom
    rw [← h.resumeOf_eq hs.once] at hupdate
    have hfree : resumeOf s i = none := by simp [resumeOf, h.free]
    simpa [resumes, hfree] using hupdate
  refine ⟨?_, ?_, ?_, ?_, ?_⟩
  · exact hs.once.put (.punch i) pc (h.sub hs.once)
  · intro j t ht
    rw [h.resumeOf_eq hs.once] at ht
    by_cases hj : j = i
    · rw [hj, Function.update_self] at ht
      exact (hworker t (htarget t ht).1).1
    · rw [Function.update_of_ne hj] at ht
      exact (hworker t (hs.target j t ht)).1
  · intro j c t hj ht
    rcases h.sub hs.once (.punch j) c hj with ⟨-, rfl⟩ | ⟨hne, hold⟩
    · rw [h.resumed] at ht
      obtain ⟨hrun, hu⟩ := htarget t ht
      rw [h.ufrag t (hworker t hrun).2, h.claim]
      exact ⟨hu, hcu⟩
    · rw [h.resume c hne] at ht
      have hof : resumeOf s j = some t := (resumeOf_some hold).trans ht
      rw [h.ufrag t (hworker t (hs.target j t hof)).2, h.ufrag c hne]
      exact hs.whose j c t hold ht
  · rintro c ⟨r, hr⟩
    have hlive : Live s c := by
      rcases h.sub hs.once r c hr with ⟨-, rfl⟩ | ⟨-, hold⟩
      · exact ⟨.listen, h.ready⟩
      · exact ⟨r, hold⟩
    rw [h.pending, hs.count c hlive, hcount]
    split_ifs <;> simp
  · intro c
    have hold := hs.nonneg c
    rw [h.pending]
    split_ifs <;> omega

theorem Entered.inv {s s' : HostSess} {r₀ : Role} {c₀ : ConnId} (h : Entered s r₀ c₀ s')
    (hs : ResumeInv s) (hzero : (s.conn c₀).resumePending = 0) : ResumeInv s' := by
  refine ⟨hs.once.put r₀ c₀ h.sub, ?_, ?_, ?_, ?_⟩
  · intro i t ht
    rw [h.resumeOf_eq] at ht
    obtain ⟨j, hj⟩ := hs.target i t ht
    refine ⟨j, ?_⟩
    rw [h.place (.worker j)]
    · exact hj
    · rintro rfl
      rw [h.empty] at hj
      cases hj
  · intro i c t hi ht
    rw [h.punching] at hi
    rw [h.conn] at ht ⊢
    exact hs.whose i c t hi ht
  · rintro c ⟨r, hr⟩
    unfold resumes
    rw [h.conn, h.resumeOf_eq]
    rcases h.sub r c hr with ⟨-, rfl⟩ | ⟨-, hold⟩
    · have hnone := hs.resumes_eq_zero fun hrun => h.fresh hrun.live
      unfold resumes at hnone
      rw [hzero, hnone]
      rfl
    · exact hs.count c ⟨r, hold⟩
  · intro c
    rw [h.conn]
    exact hs.nonneg c

/-- A place that is not in use may be written. -/
theorem Allocated.inv {s s' : HostSess} {c : ConnId} {ufrag : Bytes}
    (h : Allocated s c ufrag s') (hs : ResumeInv s) (hfree : ¬Live s c) : ResumeInv s' := by
  have hpunch : ∀ i, s'.punching i = s.punching i := fun i => congrFun h.place (.punch i)
  have hother : ∀ d, Live s d → s'.conn d = s.conn d := by
    intro d hd
    apply h.other
    rintro rfl
    exact hfree hd
  have hof : resumeOf s' = resumeOf s := by
    funext i
    unfold resumeOf
    rw [hpunch]
    cases hi : s.punching i with
    | none => rfl
    | some d => exact congrArg Conn.punchResume (hother d ⟨.punch i, hi⟩)
  refine ⟨?_, ?_, ?_, ?_, ?_⟩
  · unfold PlacesOnce
    rw [h.place]
    exact hs.once
  · intro i t ht
    unfold Running
    rw [hof] at ht
    rw [h.place]
    exact hs.target i t ht
  · intro i d t hi ht
    rw [hpunch] at hi
    rw [hother d ⟨.punch i, hi⟩] at ht ⊢
    have hrun := hs.target i t ((resumeOf_some hi).trans ht)
    rw [hother t hrun.live]
    exact hs.whose i d t hi ht
  · intro d hd
    unfold Live at hd
    rw [h.place] at hd
    unfold resumes
    rw [hother d hd, hof]
    exact hs.count d hd
  · intro d
    by_cases hd : d = c
    · rw [hd, h.zero]
    · rw [h.other d hd]
      exact hs.nonneg d

theorem Reaped.inv {s s' : HostSess} {j : Fin hostMaxWorkers} (h : Reaped s j s')
    (hs : ResumeInv s) : ResumeInv s' := by
  have hkept : ∀ i t, resumeOf s' i = some t → resumeOf s i = some t ∧ t ≠ (s.ws j).c := by
    intro i t ht
    rw [h.resumeOf_eq] at ht
    split_ifs at ht with hlost
    refine ⟨ht, ?_⟩
    rintro rfl
    exact hlost ht
  refine ⟨hs.once.of_sub fun r c hc => (h.sub r c hc).2, ?_, ?_, ?_, ?_⟩
  · intro i t ht
    obtain ⟨hold, hne⟩ := hkept i t ht
    obtain ⟨k, hk⟩ := hs.target i t hold
    refine ⟨k, ?_⟩
    rw [h.place]
    · exact hk
    · intro heq
      rw [heq, h.standing, Option.some.injEq] at hk
      exact hne hk.symm
  · intro i c t hi ht
    rw [h.punching] at hi
    rw [h.resume i c hi] at ht
    split_ifs at ht
    rw [h.ufrag, h.ufrag]
    exact hs.whose i c t hi ht
  · rintro c ⟨r, hr⟩
    obtain ⟨hne, hold⟩ := h.sub r c hr
    have hc : (s.ws j).c ≠ c := by
      rintro rfl
      exact hne (hs.once r (.worker j) _ hold h.standing)
    have hsame : resumes s' c = resumes s c := by
      apply slotCount_congr
      intro i
      rw [h.resumeOf_eq]
      split_ifs with hlost
      · rw [hlost]
        simpa using hc
      · rfl
    rw [h.pending, hs.count c ⟨r, hold⟩, hsame]
  · intro c
    rw [h.pending]
    exact hs.nonneg c

/-- The agent kept ready is given up. -/
theorem ResumeInv.giveUp {s : HostSess} (h : ResumeInv s) :
    ResumeInv { s with listen := none } := by
  have hsub : ∀ r c, placeOf { s with listen := none } r = some c → placeOf s r = some c := by
    intro r c hc
    cases r with
    | listen => cases hc
    | punch i => exact hc
    | worker j => exact hc
  refine ⟨h.once.of_sub hsub, h.target, h.whose, ?_, h.nonneg⟩
  rintro c ⟨r, hr⟩
  exact h.count c ⟨r, hsub r c hr⟩

/-! ## The turnstile's calls -/

theorem punchRelease_inv (s : HostSess) (i : Fin hostMaxWorkers) (h : ResumeInv s) :
    ResumeInv (punchRelease s i) := (punchRelease_spec s i).dropped.inv h

theorem scanSlot_inv (s : HostSess) (i : Fin hostMaxWorkers) (e : ScanIn) (h : ResumeInv s) :
    ResumeInv (scanSlot s i e) := by
  rcases scanSlot_cases s i e with hsame | ⟨c, hi, -, ⟨hback, -⟩ | hspawn⟩
  · exact h.of_same hsame
  · exact hback.dropped.inv h
  · obtain ⟨-, -, -, g, hdrop, hconn, -, hend⟩ := hspawn
    have hinv := hdrop.inv h
    split_ifs at hend
    · obtain ⟨j, hentered⟩ := hend (h.not_live_of_dropped hdrop hi)
      refine hentered.inv hinv ?_
      rw [hconn]
      exact h.pending_of_punch hi
    · exact hinv.of_same hend

theorem offerTurn_inv (C : Candpack) {s : HostSess} (h : ResumeInv s) (idx : Fin rdvHostMax)
    (e : TakeIn) : ResumeInv (offerTurn C s idx e) := by
  have hroom := offerRoom_induction (P := ResumeInv) punchRelease_inv h
    (candSdpUfrag (s.offers idx).sdp) (sdpPwd (s.offers idx).sdp)
  rcases offerTurn_cases C s idx e with hsame | ⟨hpunches, ⟨-, heq⟩ | ⟨pslot, -, hend⟩⟩
  · exact h.of_same hsame
  · rw [heq]
    exact hroom
  · split_ifs at hend
    · obtain ⟨pc, htaken⟩ := hend
      have hmade := offerRoom_made s (candSdpUfrag (s.offers idx).sdp) (sdpPwd (s.offers idx).sdp)
      refine htaken.inv hroom hpunches.2.1 ?_
      intro t ht
      obtain ⟨⟨j, hj⟩, hu⟩ := workerByUfrag_running ht
      rw [hmade.ufrag]
      exact ⟨⟨j, (hmade.worker j).trans hj⟩, hu⟩
    · exact hroom.giveUp.of_same hend

theorem lanAdmit_inv {s : HostSess} (h : ResumeInv s) (claim : LanClaim) (e : LanIn) :
    ResumeInv (lanAdmit s claim e).1 := by
  rcases lanAdmit_cases s claim e with heq | ⟨c, g, hadmits, halloc, -, hend⟩
  · rw [heq]
    exact h
  · have hinv := halloc.inv h (connLive_eq_false hadmits.2.2.2.2.1)
    split_ifs at hend
    · obtain ⟨j, hentered⟩ := hend
      exact hentered.inv hinv halloc.zero
    · exact hinv.of_same hend

theorem lanLoop_inv {s : HostSess} (h : ResumeInv s) (claims : List LanClaim) (es : List LanIn) :
    ResumeInv (lanLoop s claims es) := by
  induction claims generalizing s es with
  | nil => exact h
  | cons claim claims ih =>
      cases es with
      | nil => exact h
      | cons e es =>
          have hone := lanAdmit_inv h claim e
          unfold lanLoop
          cases hgranted : lanAdmit s claim e with
          | mk s' goes =>
              rw [hgranted] at hone
              cases goes with
              | true => exact ih hone es
              | false => exact hone

/-! ## Over a run -/

theorem sessStep_resumeInv (C : Candpack) (s : HostSess) (op : SessOp) (h : ResumeInv s) :
    ResumeInv (sessStep C s op) := by
  by_cases hleaves : leavesPlaces op = true
  · exact h.of_same (sessStep_samePlaces C s hleaves)
  cases op with
  | drain es => exact (lanLoop_inv h s.lanPending es).of_same (.of_eq rfl)
  | gather c =>
      rcases gather_cases C s c with heq | ⟨g, hlive, halloc, -, hentered⟩
      · rw [heq]
        exact h
      · exact hentered.inv (halloc.inv h hlive) halloc.zero
  | giveUp => exact h.giveUp
  | take idx e => exact offerTurn_inv C h idx e
  | scan i e => exact scanSlot_inv s i e h
  | release i => exact punchRelease_inv s i h
  | pass i =>
      rcases workerPass_cases s i with ⟨-, hsame⟩ | ⟨-, -, hreaped⟩
      · exact h.of_same hsame
      · exact hreaped.inv h
  | _ => exact absurd rfl hleaves

theorem sessInit_resumeInv (cid : Cid) (gen : UInt32) (admitMax stuck : Int) :
    ResumeInv (sessInit cid gen admitMax stuck) := by
  have hnone : ∀ r, placeOf (sessInit cid gen admitMax stuck) r = none := by
    intro r
    cases r <;> rfl
  refine ⟨?_, ?_, ?_, ?_, fun _ => le_refl 0⟩
  · intro r r' c hr
    rw [hnone] at hr
    cases hr
  · intro i t ht
    cases ht
  · intro i c t hi
    cases hi
  · rintro c ⟨r, hr⟩
    rw [hnone] at hr
    cases hr

/-- The punches that an offer gives up are released one after another. -/
theorem offerRoom_releases (C : Candpack) (s : HostSess) (cu cp : Bytes) :
    ∃ is : List (Fin hostMaxWorkers),
      (offerRoom s cu cp).1 = run (sessStep C) s (is.map .release) := by
  apply offerRoom_induction (P := fun g => ∃ is : List (Fin hostMaxWorkers),
    g = run (sessStep C) s (is.map .release))
  · rintro _ i ⟨is, rfl⟩
    refine ⟨is ++ [i], ?_⟩
    rw [List.map_append, List.map_singleton, run_concat]
    rfl
  · exact ⟨[], rfl⟩

/-- Over every run of the turnstile, a running worker counts the punches in flight that
resume it, and no count is below zero.  A punch in flight resumes a worker that runs, which
counts it, so that the count is above zero wherever a punch gives its resumption back; and
the punches that an offer gives up go one after another, each from a session of a run. -/
theorem resume_count (C : Candpack) (cid : Cid) (gen : UInt32) (admitMax stuck : Int)
    (ops : List SessOp) :
    let s := run (sessStep C) (sessInit cid gen admitMax stuck) ops
    (∀ j, (s.ws j).used = true →
        (s.conn (s.ws j).c).resumePending = resumes s (s.ws j).c) ∧
      (∀ c, 0 ≤ (s.conn c).resumePending) ∧
      (∀ i c t, s.punching i = some c → (s.conn c).punchResume = some t →
        (∃ j, (s.ws j).used = true ∧ (s.ws j).c = t) ∧ 0 < (s.conn t).resumePending) ∧
      ∀ cu cp, ∃ is : List (Fin hostMaxWorkers),
        (offerRoom s cu cp).1 = run (sessStep C) s (is.map .release) := by
  intro s
  have hinv : ResumeInv s :=
    run_invariant (sessStep_resumeInv C) (sessInit_resumeInv cid gen admitMax stuck) ops
  refine ⟨?_, hinv.nonneg, ?_, offerRoom_releases C s⟩
  · intro j hj
    exact hinv.count _ ⟨.worker j, placeOf_worker.mpr ⟨hj, rfl⟩⟩
  · intro i c t hi ht
    have hof : resumeOf s i = some t := by
      unfold resumeOf
      rw [hi]
      exact ht
    obtain ⟨j, hj⟩ := hinv.target i t hof
    refine ⟨⟨j, placeOf_worker.mp hj⟩, ?_⟩
    have hpos : 0 < resumes s t := slotCount_pos (i := i) (by simp [hof])
    rw [hinv.count t ⟨.worker j, hj⟩]
    exact_mod_cast hpos

end Session
end Comrade
