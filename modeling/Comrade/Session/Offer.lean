import Comrade.Session.Model

/-!
# What becomes of an offer

An offer that `rdv_host_slot` takes leaves its claimant's record harvested, and the host
busy with it.  It is consumed by `claimant_read`, which may drop it, or by
`host_offer_take`, which takes it from the queue.

* `Settled` says that the claimant has a reply owed to it or standing in the cell, or is
  not waiting for one.
* `Answers` is the condition on the session and the offer under which consuming it leaves
  the claimant settled, exit by exit.
* `consumed_settled_iff`: that condition is exact.
-/

namespace Comrade
namespace Session

open Lib Rdv

/-! ## The claimant's record -/

/-- The claimant is not left waiting: a reply is owed to it or stands in the cell, or its
record is not one that waits. -/
def Settled (h : RdvHost) (cid : Cid) : Prop :=
  ∀ i, rdvHostFind h cid = some i → (h.c i).state = .harvested →
    (h.c i).pending = true ∨ (h.c i).holds = true

/-- A reply is owed to the claimant. -/
def Owed (h : RdvHost) (cid : Cid) : Prop :=
  ∃ i, rdvHostFind h cid = some i ∧ (h.c i).pending = true

/-- The claimant has been given an answer that stands on its record. -/
def HasAnswer (h : RdvHost) (cid : Cid) : Prop :=
  ∃ i, rdvHostFind h cid = some i ∧ (h.c i).answer ≠ []

/-- A record edited in place is found where it was. -/
theorem rdvHostFind_edit {h h' : RdvHost} {cid : Cid} {i : Fin rdvHostMax} {r : RdvClaimant}
    (hfind : rdvHostFind h cid = some i) (hc : h'.c = Function.update h.c i r)
    (hused : r.used = true) (hcid : r.cid = (h.c i).cid) : rdvHostFind h' cid = some i := by
  rw [← hfind]
  apply rdvHostFind_congr
  intro j
  rw [hc]
  by_cases hj : j = i
  · subst hj
    rw [Function.update_self]
    exact ⟨hused.trans (rdvHostFind_some hfind).1.symm, hcid⟩
  · rw [Function.update_of_ne hj]
    exact ⟨rfl, rfl⟩

theorem settled_of_find {h : RdvHost} {cid : Cid} {i : Fin rdvHostMax}
    (hfind : rdvHostFind h cid = some i) :
    Settled h cid ↔
      ((h.c i).state = .harvested → (h.c i).pending = true ∨ (h.c i).holds = true) := by
  constructor
  · exact fun h => h i hfind
  · intro h j hj
    rw [hfind, Option.some.injEq] at hj
    subst hj
    exact h

theorem settled_of_none {h : RdvHost} {cid : Cid} (hfind : rdvHostFind h cid = none) :
    Settled h cid := by
  intro i hi
  rw [hfind] at hi
  cases hi

/-- Whether a claimant is settled is read from the record written. -/
theorem settled_edit {h h' : RdvHost} {cid : Cid} {i : Fin rdvHostMax} {r : RdvClaimant}
    (hfind : rdvHostFind h cid = some i) (hc : h'.c = Function.update h.c i r)
    (hused : r.used = true) (hcid : r.cid = (h.c i).cid) :
    Settled h' cid ↔ (r.state = .harvested → r.pending = true ∨ r.holds = true) := by
  have hrec : h'.c i = r := by rw [hc, Function.update_self]
  rw [settled_of_find (rdvHostFind_edit hfind hc hused hcid), hrec]

/-- Keeping settles a claimant that has been answered before, and only that. -/
theorem settled_keep_iff (h : RdvHost) (cid : Cid) :
    Settled (rdvHostKeep h cid) cid ↔ Settled h cid ∨ HasAnswer h cid := by
  unfold rdvHostKeep
  cases hfind : rdvHostFind h cid with
  | none => exact ⟨Or.inl, fun _ => settled_of_none hfind⟩
  | some i =>
      have hanswer : HasAnswer h cid ↔ (h.c i).answer ≠ [] := by
        unfold HasAnswer
        simp [hfind]
      have hstate : (claimantKept (h.c i)).state = .answered := by
        unfold claimantKept
        simp only
        split <;> rfl
      have hcid : (claimantKept (h.c i)).cid = (h.c i).cid := by
        unfold claimantKept
        simp only
        split <;> rfl
      rw [hanswer]
      simp only
      split
      · rename_i hgone
        rw [settled_of_find hfind, hgone]
        simp
      split
      · rename_i hnone
        rw [settled_of_find hfind]
        simp [hnone.2]
      · -- the record is answered now; it was harvested only if it holds an answer
        rename_i hnone
        have hc : ((if (h.c i).state ≠ .answered then { h with answered := h.answered + 1 }
            else h).put i (claimantKept ((if (h.c i).state ≠ .answered then
              { h with answered := h.answered + 1 } else h).c i))).c =
            Function.update h.c i (claimantKept (h.c i)) := by
          split <;> rfl
        rw [settled_edit hfind hc (by simp [RdvClaimant.used, hstate]) hcid, hstate,
          settled_of_find hfind]
        simp only [reduceCtorEq, false_implies, true_iff]
        by_cases hans : (h.c i).answer = []
        · left
          intro hharvested
          exact absurd ⟨by simp [hharvested], hans⟩ hnone
        · exact Or.inr hans

/-- A record written that does not wait settles its claimant, whatever else the host
counted on the way. -/
theorem settled_put {h g : RdvHost} {cid : Cid} {i : Fin rdvHostMax} {r : RdvClaimant}
    (hfind : rdvHostFind h cid = some i) (hg : g.c = h.c) (hused : r.used = true)
    (hcid : r.cid = (g.c i).cid) (hstate : r.state ≠ .harvested) : Settled (g.put i r) cid := by
  have hc : (g.put i r).c = Function.update h.c i r := by rw [RdvHost.put, hg]
  rw [settled_edit hfind hc hused (hg ▸ hcid)]
  exact fun h => absurd h hstate

/-- A claimant refused is settled. -/
theorem settled_refuse (h : RdvHost) (cid : Cid) (reason : UInt8) :
    Settled (rdvHostRefuse h cid reason) cid := by
  unfold rdvHostRefuse
  cases hfind : rdvHostFind h cid with
  | none => exact settled_of_none hfind
  | some i =>
      simp only
      split
      · exact settled_put hfind (answeredLess_c h) rfl rfl (by simp)
      · exact settled_put hfind rfl rfl rfl (by simp)

/-- A claimant answered is settled. -/
theorem settled_answer (h : RdvHost) (cid : Cid) {payload : Bytes}
    (hlen : payload.length ≤ rdvMaxPayload) : Settled (rdvHostAnswer h cid payload) cid := by
  unfold rdvHostAnswer
  cases hfind : rdvHostFind h cid with
  | none => exact settled_of_none hfind
  | some i =>
      simp only
      rw [if_neg (not_lt.mpr hlen)]
      have hc : (if (h.c i).state ≠ .answered then { h with answered := h.answered + 1 }
          else h).c = h.c := by
        split <;> rfl
      exact settled_put hfind hc rfl rfl (by simp)

/-- An offer taken leaves the record harvested, with what was owed to the claimant and
nothing standing in the cell. -/
theorem rdvHostSlot_taken {h : RdvHost} {m : RdvMsg} (htook : (rdvHostSlot h m).2 = true) :
    ∃ i, rdvHostFind (rdvHostSlot h m).1 m.frm = some i ∧
      (((rdvHostSlot h m).1).c i).state = .harvested ∧
      (((rdvHostSlot h m).1).c i).holds = false ∧
      ((((rdvHostSlot h m).1).c i).pending = true ↔ Owed h m.frm) := by
  unfold rdvHostSlot at htook ⊢
  by_cases hoffer : hostOffered h.cid m = false
  · rw [if_pos hoffer] at htook
    cases htook
  rw [if_neg hoffer] at htook ⊢
  -- what the rest of the call does to the record it is given
  have hrest : ∀ (g : RdvHost) (i : Fin rdvHostMax), rdvHostFind g m.frm = some i →
      (hostTakeOffer g i m).2 = true →
      rdvHostFind (hostTakeOffer g i m).1 m.frm = some i ∧
        ((hostTakeOffer g i m).1.c i).state = .harvested ∧
        ((hostTakeOffer g i m).1.c i).holds = false ∧
        ((hostTakeOffer g i m).1.c i).pending = (g.c i).pending := by
    intro g i hfind htook
    have hused := (rdvHostFind_some hfind).1
    have hstate : (claimantHarvested (g.c i) m.seq).state = .harvested :=
      if_neg (by simpa [RdvClaimant.used] using hused)
    unfold hostTakeOffer at htook ⊢
    split at htook
    · cases htook
    rename_i hstale
    rw [if_neg hstale]
    simp only at htook ⊢
    split at htook
    · cases htook
    rename_i hgrant
    rw [if_neg hgrant]
    have hat : (hostHarvest g i m.seq).c i = claimantHarvested (g.c i) m.seq := by
      rw [hostHarvest_c]
      simp [claimantHarvested]
    refine ⟨?_, ?_, ?_, ?_⟩
    · rw [← hfind]
      apply rdvHostFind_congr
      intro j
      rw [hostHarvest_c]
      show (Function.update g.c i (claimantHarvested (g.c i) m.seq) j).used = (g.c j).used ∧
        (Function.update g.c i (claimantHarvested (g.c i) m.seq) j).cid = (g.c j).cid
      by_cases hj : j = i
      · subst hj
        rw [Function.update_self, hused]
        exact ⟨by simp [RdvClaimant.used, hstate], rfl⟩
      · rw [Function.update_of_ne hj]
        exact ⟨rfl, rfl⟩
    · rw [hat, hstate]
    · rw [hat]
      rfl
    · rw [hat]
      rfl
  unfold hostAdmit at htook ⊢
  cases hfind : rdvHostFind h m.frm with
  | some i =>
      rw [hfind] at htook
      simp only at htook ⊢
      obtain ⟨hfound, hstate, hholds, hpending⟩ := hrest h i hfind htook
      refine ⟨i, hfound, hstate, hholds, ?_⟩
      rw [hpending]
      unfold Owed
      simp [hfind]
  | none =>
      rw [hfind] at htook
      simp only at htook ⊢
      cases hvacant : hostVacancy h with
      | none =>
          rw [hvacant] at htook
          cases htook
      | some i =>
          rw [hvacant] at htook
          simp only at htook ⊢
          have hnew : (h.put i (claimantNew m.frm)).c i = claimantNew m.frm :=
            Function.update_self ..
          have hfound : rdvHostFind (h.put i (claimantNew m.frm)) m.frm = some i := by
            unfold rdvHostFind
            rw [firstSlot_eq_some_iff]
            constructor
            · rw [hnew]
              simp [claimantNew, RdvClaimant.used]
            · intro j hj
              have hcj : (h.put i (claimantNew m.frm)).c j = h.c j :=
                Function.update_of_ne (Fin.ne_of_lt hj) ..
              rw [hcj]
              exact firstSlot_eq_none_iff.mp hfind j
          obtain ⟨hfound', hstate, hholds, hpending⟩ := hrest _ i hfound htook
          refine ⟨i, hfound', hstate, hholds, ?_⟩
          rw [hpending, hnew]
          unfold Owed
          simp [hfind, claimantNew, claimantZero]

/-! ## What consumes an offer -/

/-- A copy of an offer read from the cell, or an entry of the queue decided. -/
inductive OfferIn where
  | read (m : RdvMsg) (grade : UInt8) (wide : Bool)
  | take (idx : Fin rdvHostMax) (e : TakeIn)

/-- Whose offer it is. -/
def OfferIn.asker (s : HostSess) : OfferIn → Cid
  | .read m _ _ => m.frm
  | .take idx _ => (s.offers idx).cid

def offerStep (C : Candpack) (s : HostSess) : OfferIn → HostSess
  | .read m grade wide => claimantRead C s m grade wide
  | .take idx e => (hostOfferTake C s idx e).1

/-- The description of the claimant's stands in the queue. -/
def Queued (s : HostSess) (cid : Cid) (sdp : Bytes) : Prop :=
  ∃ i, s.offers i = { used := true, cid := cid, sdp := sdp }

/-- The step consumes an offer that `rdv_host_slot` took: it is read and not queued, or
leaves the queue. -/
def Consumes (C : Candpack) (s : HostSess) : OfferIn → Prop
  | .read m grade wide =>
      m.kind = .offer ∧ (rdvHostSlot s.rh m).2 = true ∧
        ∀ sdp, C.decode m.payload = some sdp → ¬Queued (claimantRead C s m grade wide) m.frm sdp
  | .take idx e =>
      (s.offers idx).used = true ∧ ((hostOfferTake C s idx e).1.offers idx).used = false

/-- The offer read can be queued: it decodes, and the turnstile is told of it and has an
entry for it, or has it already. -/
def Queues (C : Candpack) (s : HostSess) (m : RdvMsg) : Prop :=
  ∃ sdp, C.decode m.payload = some sdp ∧
    (Queued s m.frm sdp ∨
      (s.subscribed = true ∧ sdp.length < natSdpMax ∧ (offersSlot s m.frm).isSome = true))

/-- The agent takes the claimant's description, and its own can be packed. -/
def Punches (C : Candpack) (e : TakeIn) : Prop :=
  e.primes = true ∧ e.localSdp.length < natSdpMax ∧ (C.encode e.localSdp).isSome = true

/-- The condition under which consuming the offer leaves its claimant settled, by what
becomes of it. -/
def Answers (C : Candpack) (s : HostSess) : OfferIn → Prop
  | .read m _ _ =>
      m.kind = .offer → (rdvHostSlot s.rh m).2 = true → Queues C s m ∨ Owed s.rh m.frm
  | .take idx e =>
      let o := s.offers idx
      let cu := candSdpUfrag o.sdp
      let cp := sdpPwd o.sdp
      o.used = true →
        if cu = [] then Settled s.rh o.cid
        else if offerInHand s cu cp = true then Settled s.rh o.cid ∨ HasAnswer s.rh o.cid
        else if budgetSpent s cu = true then True
        else
          e.ready = true → s.listen.isSome = true → (offerRoom s cu cp).2.isSome = true →
            Punches C e ∨ Settled (offerRoom s cu cp).1.rh o.cid

/-! ## The two readers -/

/-- The way an ask came is written on the record and changes nothing else. -/
theorem settled_claimantAsks (h : RdvHost) (cid : Cid) (grade : UInt8) (wide : Bool) :
    Settled (claimantAsks h cid grade wide) cid ↔ Settled h cid := by
  unfold claimantAsks
  cases hfind : rdvHostFind h cid with
  | none => exact Iff.rfl
  | some i =>
      have hused := (rdvHostFind_some hfind).1
      simp only
      have hc : (h.put i { h.c i with
          grade := grade, wideAsk := if wide = true then 1 else 0 }).c =
          Function.update h.c i { h.c i with
            grade := grade, wideAsk := if wide = true then 1 else 0 } := rfl
      rw [settled_edit hfind hc hused rfl, settled_of_find hfind]

/-- What `claimant_read` leaves of an offer that is taken. -/
theorem claimantRead_taken (C : Candpack) (s : HostSess) {m : RdvMsg} (grade : UInt8) (wide : Bool)
    (hkind : m.kind = .offer) (htook : (rdvHostSlot s.rh m).2 = true) :
    claimantRead C s m grade wide =
      let s := { s with rh := claimantAsks (rdvHostSlot s.rh m).1 m.frm grade wide }
      match C.decode m.payload with
      | none => s
      | some sdp => if s.subscribed = true then onPeerOffer s m.frm sdp else s := by
  unfold claimantRead
  rw [if_neg (not_not.mpr hkind)]
  cases hslot : rdvHostSlot s.rh m with
  | mk rh took =>
      rw [hslot] at htook
      cases htook
      rfl

/-- Reading an offer leaves the claimant settled exactly when something was owed to it
before. -/
theorem settled_read (C : Candpack) (s : HostSess) {m : RdvMsg} (grade : UInt8) (wide : Bool)
    (hkind : m.kind = .offer) (htook : (rdvHostSlot s.rh m).2 = true) :
    Settled (claimantRead C s m grade wide).rh m.frm ↔ Owed s.rh m.frm := by
  have hrh : (claimantRead C s m grade wide).rh =
      claimantAsks (rdvHostSlot s.rh m).1 m.frm grade wide := by
    rw [claimantRead_taken C s grade wide hkind htook]
    simp only
    split
    · rfl
    · unfold onPeerOffer offersPush
      split
      · split
        · rfl
        · split <;> rfl
      · rfl
  obtain ⟨i, hfind, hstate, hholds, hpending⟩ := rdvHostSlot_taken htook
  rw [hrh, settled_claimantAsks, settled_of_find hfind, ← hpending, hholds]
  simp [hstate]

/-- An entry pushed stands in the queue. -/
theorem queued_offersPush {s : HostSess} {cid : Cid} (sdp : Bytes)
    (hslot : (offersSlot s cid).isSome = true) : Queued (offersPush s cid sdp) cid sdp := by
  unfold offersPush
  cases hi : offersSlot s cid with
  | none => simp [hi] at hslot
  | some i => exact ⟨i, Function.update_self ..⟩

/-- A description handed to the turnstile stands in the queue exactly when it stood there
already or an entry could be written. -/
theorem queued_deliver (s : HostSess) (cid : Cid) (sdp : Bytes) :
    Queued (if s.subscribed = true then onPeerOffer s cid sdp else s) cid sdp ↔
      Queued s cid sdp ∨
        (s.subscribed = true ∧ sdp.length < natSdpMax ∧ (offersSlot s cid).isSome = true) := by
  by_cases hsub : s.subscribed = true
  · rw [if_pos hsub, onPeerOffer]
    by_cases hlen : natSdpMax ≤ sdp.length
    · rw [if_pos hlen]
      simp [not_lt.mpr hlen]
    · rw [if_neg hlen]
      constructor
      · intro hq
        cases hslot : offersSlot s cid with
        | none =>
            left
            unfold offersPush at hq
            rw [hslot] at hq
            exact hq
        | some i => exact Or.inr ⟨hsub, not_le.mp hlen, rfl⟩
      · rintro (⟨i, hi⟩ | ⟨_, _, hslot⟩)
        · -- an entry of the claimant's is one that can be written again
          apply queued_offersPush
          unfold offersSlot
          rw [Option.isSome_or, Bool.or_eq_true]
          left
          rw [Option.isSome_iff_ne_none]
          intro hnone
          have := firstSlot_eq_none_iff.mp hnone i
          simp [hi] at this
        · exact queued_offersPush sdp hslot
  · rw [if_neg hsub]
    simp [hsub]

/-- The offer read stands in the queue afterwards exactly when it can be queued. -/
theorem queued_read (C : Candpack) (s : HostSess) {m : RdvMsg} (grade : UInt8) (wide : Bool)
    (hkind : m.kind = .offer) (htook : (rdvHostSlot s.rh m).2 = true) :
    (∃ sdp, C.decode m.payload = some sdp ∧ Queued (claimantRead C s m grade wide) m.frm sdp) ↔
      Queues C s m := by
  rw [claimantRead_taken C s grade wide hkind htook]
  unfold Queues
  apply exists_congr
  intro sdp
  apply and_congr_right
  intro hdecode
  simp only [hdecode]
  exact queued_deliver { s with rh := claimantAsks (rdvHostSlot s.rh m).1 m.frm grade wide }
    m.frm sdp

/-! ## The punches given up for room -/

/-- What holds of a session and of it with any punch released holds of it when the
punches in the way of a new one are given up. -/
theorem offerRoom_induction {P : HostSess → Prop} (hrelease : ∀ s i, P s → P (punchRelease s i))
    {s : HostSess} (hs : P s) (cu cp : Bytes) : P (offerRoom s cu cp).1 := by
  have hreap : ∀ s, P s → P (punchReapStale s cu cp) := by
    intro s hs
    unfold punchReapStale
    induction List.finRange hostMaxWorkers generalizing s with
    | nil => exact hs
    | cons i is ih =>
        rw [List.foldl_cons]
        apply ih
        split
        · exact hs
        · split
          · exact hrelease s i hs
          · exact hs
  have hstale : P (if punchTriedAgain s cu cp = true then punchReapStale s cu cp else s) := by
    split
    · exact hreap s hs
    · exact hs
  have hroom : ∀ s, P s → P (punchRoom s).1 := by
    intro s hs
    unfold punchRoom punchEvictIdle
    split
    · exact hs
    · cases punchOldest s fun c => c.punchResume.isNone && !offerQueuedUfrag s c.punchUfrag with
      | none => exact hs
      | some i => exact hrelease s i hs
  have holdest : ∀ s, P s → P (punchReapOldest s cu) := by
    intro s hs
    unfold punchReapOldest
    split
    · exact hs
    · exact hrelease s _ hs
  unfold offerRoom
  simp only
  generalize (if punchTriedAgain s cu cp = true then punchReapStale s cu cp else s) = s1 at hstale
  have hs2 := hroom s1 hstale
  cases hr : punchRoom s1 with
  | mk s2 slot =>
      rw [hr] at hs2
      cases slot with
      | none => exact hs2
      | some pslot =>
          simp only
          split
          · exact holdest s2 hs2
          · exact hs2

theorem punchRelease_offers (s : HostSess) (i : Fin hostMaxWorkers) :
    (punchRelease s i).offers = s.offers := by
  unfold punchRelease HostSess.punchClear HostSess.edit HostSess.admittedLess
  split
  · rfl
  · simp only
    split <;> split <;> first | rfl | (split <;> rfl)

/-- Making room takes nothing from the queue. -/
theorem offerRoom_offers (s : HostSess) (cu cp : Bytes) :
    (offerRoom s cu cp).1.offers = s.offers :=
  offerRoom_induction (P := fun g => g.offers = s.offers)
    (fun g i hg => (punchRelease_offers g i).trans hg) rfl cu cp

/-! ## The exits of `host_offer_take` -/

theorem offerDone_used (s : HostSess) (idx : Fin rdvHostMax) :
    ((s.offerDone idx).offers idx).used = false := by
  unfold HostSess.offerDone
  simp

theorem punchTake_rh (s : HostSess) (pc : ConnId) (resume : Option ConnId)
    (pslot : Fin hostMaxWorkers) (cid : Cid) (cu cp : Bytes) (now : UInt64) :
    (punchTake s pc resume pslot cid cu cp now).rh = s.rh := by
  unfold punchTake HostSess.edit
  simp only
  split
  · rfl
  · split <;> rfl

/-- The agent spent on an offer settles its claimant when it takes the description and can
pack its own, and leaves the record alone otherwise. -/
theorem settled_offerPunch (C : Candpack) (s : HostSess) (idx : Fin rdvHostMax) (pc : ConnId)
    (resume : Option ConnId) (pslot : Fin hostMaxWorkers) (e : TakeIn) :
    Settled (offerPunch C s idx pc resume pslot e).rh (s.offers idx).cid ↔
      Punches C e ∨ Settled s.rh (s.offers idx).cid := by
  unfold offerPunch Punches
  simp only
  by_cases hprime : e.primes = false
  · rw [if_pos hprime]
    simp [hprime, HostSess.offerDone]
  · rw [if_neg hprime]
    have hrh : ∀ (g : HostSess), ((if 0 < g.stuckLeft then { g with stuckLeft := g.stuckLeft - 1 }
        else g).edit pc fun c => { c with answerSdp := e.localSdp }).rh = g.rh := by
      intro g
      unfold HostSess.edit
      split <;> rfl
    show Settled (sigAnswer C _ (s.offers idx).cid e.localSdp) (s.offers idx).cid ↔ _
    rw [hrh, punchTake_rh]
    unfold sigAnswer
    by_cases hlen : natSdpMax ≤ e.localSdp.length
    · rw [if_pos hlen]
      simp [not_lt.mpr hlen]
    · rw [if_neg hlen]
      cases hpack : C.encode e.localSdp with
      | none => simp
      | some packed =>
          have hsettled := settled_answer s.rh (s.offers idx).cid (C.encode_len _ _ hpack).2
          simp [hsettled, Bool.not_eq_false _ ▸ hprime, not_le.mp hlen]

/-- The condition is exact: for every session and every offer, consuming the offer leaves
its claimant settled if and only if it holds. -/
theorem consumed_settled_iff (C : Candpack) (s : HostSess) (op : OfferIn) :
    (Consumes C s op → Settled (offerStep C s op).rh (op.asker s)) ↔ Answers C s op := by
  cases op with
  | read m grade wide =>
      show (Consumes C s (.read m grade wide) → Settled (claimantRead C s m grade wide).rh m.frm) ↔
        (m.kind = .offer → (rdvHostSlot s.rh m).2 = true → Queues C s m ∨ Owed s.rh m.frm)
      unfold Consumes
      by_cases htook : m.kind = .offer ∧ (rdvHostSlot s.rh m).2 = true
      · have hqueued := queued_read C s grade wide htook.1 htook.2
        rw [settled_read C s grade wide htook.1 htook.2, ← hqueued]
        simp only [htook.1, htook.2, true_and, true_implies]
        constructor
        · intro h
          by_cases hq : ∃ sdp, C.decode m.payload = some sdp ∧
              Queued (claimantRead C s m grade wide) m.frm sdp
          · exact Or.inl hq
          · right
            apply h
            intro sdp hdecode hqueue
            exact hq ⟨sdp, hdecode, hqueue⟩
        · rintro (⟨sdp, hdecode, hqueue⟩ | howed) hnot
          · exact absurd hqueue (hnot sdp hdecode)
          · exact howed
      · constructor
        · intro _ hkind hslot
          exact absurd ⟨hkind, hslot⟩ htook
        · intro _ hcons
          exact absurd ⟨hcons.1, hcons.2.1⟩ htook
  | take idx e =>
      show ((s.offers idx).used = true ∧ ((hostOfferTake C s idx e).1.offers idx).used = false →
          Settled (hostOfferTake C s idx e).1.rh (s.offers idx).cid) ↔ Answers C s (.take idx e)
      unfold Answers hostOfferTake
      simp only
      by_cases hused : (s.offers idx).used = true
      swap
      · simp [hused]
      simp only [hused, true_and, true_implies]
      split
      · -- no identity in the description: the entry goes, and nobody is told
        simp only [offerDone_used, true_implies]
        rfl
      split
      · simp only [offerDone_used, true_implies]
        exact settled_keep_iff s.rh (s.offers idx).cid
      split
      · simp only [offerDone_used, true_implies, iff_true]
        exact settled_refuse s.rh (s.offers idx).cid 1
      -- an agent and a slot are wanted: without either the offer waits
      by_cases hready : e.ready = true
      swap
      · simp [hready, hused]
      simp only [hready, if_true, true_implies]
      cases hlisten : s.listen with
      | none => simp [hused]
      | some pc =>
          have hoffers := offerRoom_offers s (candSdpUfrag (s.offers idx).sdp)
            (sdpPwd (s.offers idx).sdp)
          simp only [Option.isSome_some, true_implies]
          cases hroom : offerRoom s (candSdpUfrag (s.offers idx).sdp)
              (sdpPwd (s.offers idx).sdp) with
          | mk s1 slot =>
              rw [hroom] at hoffers
              simp only at hoffers
              cases slot with
              | none => simp [hoffers, hused]
              | some pslot =>
                  simp only [Option.isSome_some, true_implies]
                  have hdone : ((offerPunch C s1 idx pc
                      (workerByUfrag s (candSdpUfrag (s.offers idx).sdp)) pslot e).offers
                      idx).used = false := by
                    unfold offerPunch
                    simp only
                    split
                    · exact offerDone_used _ idx
                    · exact offerDone_used _ idx
                  rw [hdone, ← hoffers, settled_offerPunch]
                  simp

/-- A packing that reads the versions this build reads. -/
def versionPack : Candpack where
  decode p := if p.head?.any (fun v => 2 ≤ v && v ≤ 4) then some (p.drop 1) else none
  encode _ := none
  encode_len _ _ h := nomatch h

/-- An offer packed in a version this build does not read. -/
def unreadableOffer : RdvMsg := { offerFrom (Vector.replicate 8 2) 1 with payload := [5] }

/-- A host that waits for its first claimant. -/
def waitingHost : HostSess :=
  { sessInit (Vector.replicate 8 1) 1 0 0 with subscribed := true }

/-- The offer is taken and dropped, and its claimant is left waiting with nothing owed. -/
theorem consumed_unreadableOffer :
    Consumes versionPack waitingHost (.read unreadableOffer 1 false) ∧
      ¬Settled (offerStep versionPack waitingHost (.read unreadableOffer 1 false)).rh
        unreadableOffer.frm := by
  constructor
  · refine ⟨rfl, by decide, ?_⟩
    intro sdp hdecode
    have hnone : versionPack.decode unreadableOffer.payload = none := rfl
    rw [hnone] at hdecode
    cases hdecode
  · intro h
    rcases h ⟨0, by decide⟩ (by decide) (by decide) with hpending | hholds
    · exact absurd hpending (by decide)
    · exact absurd hholds (by decide)

end Session
end Comrade
