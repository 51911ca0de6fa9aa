import Comrade.Lib.Bytes
import Comrade.Lib.Run

/-!
# The egress pool

The addresses that a carrier maps this host to, as `peering.c` keeps them: a member is kept
the first time it is seen, for the network it was measured on.  Threads note and sample with
the epoch they started under, and any of these calls may come late.

What a run keeps to is `peeringPool_run`: a member was noted on the network of the pool, and
after the last reset.
-/

namespace Comrade
namespace Peering

open Lib

/-- `PEERING_POOL4_MAX`. -/
def peeringPool4Max : Nat := 8

/-- An IPv4 address. -/
abbrev Addr4 := Vector UInt8 4

/-- The unspecified address. -/
def addr4Zero : Addr4 := Vector.replicate 4 0

/-- `struct stun_mapping`. -/
structure StunMapping where
  addr : Addr4
  port : UInt16
  nsamples : Nat
  agree : Bool
  addrAgree : Bool
  portAgree : Bool
  deriving DecidableEq

/-- `stun_mapping_reset`. -/
def stunMappingReset : StunMapping where
  addr := addr4Zero
  port := 0
  nsamples := 0
  agree := false
  addrAgree := false
  portAgree := false

/-- `stun_mapping_add`. -/
def stunMappingAdd (m : StunMapping) (addr : Addr4) (port : UInt16) : StunMapping :=
  if m.nsamples = 0 then
    { addr := addr, port := port, nsamples := 1, agree := true, addrAgree := true,
      portAgree := true }
  else
    let addrAgree := m.addrAgree && m.addr == addr
    let portAgree := m.portAgree && m.port == port
    { m with
      nsamples := m.nsamples + 1
      agree := addrAgree && portAgree
      addrAgree := addrAgree
      portAgree := portAgree }

/-- `struct peering_pool`, the count of the posted offer apart. -/
structure Pool where
  v4 : List Addr4
  map4 : StunMapping
  epoch : UInt32
  within : v4.length ≤ peeringPool4Max
  distinct : v4.Nodup
  nonzero : addr4Zero ∉ v4

/-- A pool without members. -/
def Pool.fresh (epoch : UInt32) : Pool where
  v4 := []
  map4 := stunMappingReset
  epoch := epoch
  within := Nat.zero_le _
  distinct := List.nodup_nil
  nonzero := by simp

/-- `peering_pool_init`. -/
def peeringPoolInit : Pool := Pool.fresh 0

/-- `pool_epoch_ok`: the pool as the call leaves it, where it answers 1. -/
def poolEpochOk (p : Pool) (epoch : UInt32) : Option Pool :=
  if epoch = p.epoch then some p
  else if epoch < p.epoch then .none
  else some (Pool.fresh epoch)

/-- A new member, where there is room. -/
def Pool.add (p : Pool) (addr : Addr4) (hzero : addr ≠ addr4Zero) : Nat × Pool :=
  if hmem : addr ∈ p.v4 then (0, p)
  else if hroom : p.v4.length < peeringPool4Max then
    (p.v4.length + 1,
      { p with
        v4 := p.v4 ++ [addr]
        within := by
          rw [List.length_append, List.length_singleton]
          omega
        distinct := List.nodup_append.mpr ⟨p.distinct, List.nodup_singleton _, by
          rintro a ha b hb rfl
          exact hmem (List.mem_singleton.mp hb ▸ ha)⟩
        nonzero := by
          rw [List.mem_append, List.mem_singleton]
          exact not_or.mpr ⟨p.nonzero, hzero.symm⟩ })
  else (0, p)

/-- `peering_pool_note`: how many members there are if the address was kept, and the pool. -/
def peeringPoolNote (p : Pool) (addr : Addr4) (epoch : UInt32) : Nat × Pool :=
  if hzero : addr = addr4Zero then (0, p)
  else
    match poolEpochOk p epoch with
    | .none => (0, p)
    | some p' => p'.add addr hzero

/-- `peering_pool_copy`. -/
def peeringPoolCopy (p : Pool) (epoch : UInt32) : List Addr4 := if p.epoch = epoch then p.v4 else []

/-- `peering_pool_sample`. -/
def peeringPoolSample (p : Pool) (addr : Addr4) (port : UInt16) (epoch : UInt32) : Pool :=
  match poolEpochOk p epoch with
  | .none => p
  | some p' => { p' with map4 := stunMappingAdd p'.map4 addr port }

/-- `peering_pool_round`. -/
def peeringPoolRound (p : Pool) : Pool := { p with map4 := stunMappingReset }

/-- `peering_pool_reset`. -/
def peeringPoolReset (p : Pool) : Pool := Pool.fresh p.epoch

/-- One call. -/
inductive PoolOp where
  | note (addr : Addr4) (epoch : UInt32)
  | sample (addr : Addr4) (port : UInt16) (epoch : UInt32)
  | copy (epoch : UInt32)
  | round
  | reset
  deriving DecidableEq

def poolStep (p : Pool) : PoolOp → Pool
  | .note addr epoch => (peeringPoolNote p addr epoch).2
  | .sample addr port epoch => peeringPoolSample p addr port epoch
  | .copy _ => p
  | .round => peeringPoolRound p
  | .reset => peeringPoolReset p

/-! ## What one call does -/

/-- A measurement is taken by the pool of its epoch: the one there was, or a newer one
without members. -/
theorem poolEpochOk_eq_some {p p' : Pool} {epoch : UInt32} (h : poolEpochOk p epoch = some p') :
    p'.epoch = epoch ∧ p.epoch ≤ epoch ∧ (p' = p ∨ p'.v4 = []) := by
  unfold poolEpochOk at h
  split_ifs at h with hsame holder
  · rw [← Option.some.inj h]
    exact ⟨hsame.symm, hsame ▸ UInt32.le_refl _, .inl rfl⟩
  · rw [← Option.some.inj h]
    exact ⟨rfl, UInt32.not_lt.mp holder, .inr rfl⟩

theorem epoch_add (p : Pool) (addr : Addr4) (hzero : addr ≠ addr4Zero) :
    (p.add addr hzero).2.epoch = p.epoch := by
  unfold Pool.add
  split_ifs <;> rfl

theorem mem_add {p : Pool} {addr a : Addr4} {hzero : addr ≠ addr4Zero}
    (ha : a ∈ (p.add addr hzero).2.v4) : a ∈ p.v4 ∨ a = addr := by
  unfold Pool.add at ha
  split_ifs at ha
  · exact .inl ha
  · simpa using ha
  · exact .inl ha

/-- What a call does to the epoch and the members: the epoch does not fall, and a member was
one before, of the same epoch and with no reset, or is the one noted. -/
theorem poolStep_cases (p : Pool) (op : PoolOp) :
    p.epoch ≤ (poolStep p op).epoch ∧
      ∀ a ∈ (poolStep p op).v4, op = .note a (poolStep p op).epoch ∨
        (a ∈ p.v4 ∧ (poolStep p op).epoch = p.epoch ∧ op ≠ .reset) := by
  have hkept : ∀ op, op ≠ PoolOp.reset → p.epoch ≤ p.epoch ∧
      ∀ a ∈ p.v4, op = .note a p.epoch ∨ (a ∈ p.v4 ∧ p.epoch = p.epoch ∧ op ≠ .reset) :=
    fun op hop => ⟨UInt32.le_refl _, fun a ha => .inr ⟨ha, rfl, hop⟩⟩
  cases op with
  | copy epoch => exact hkept _ (by simp)
  | round => exact hkept _ (by simp)
  | reset => exact ⟨UInt32.le_refl _, by simp [poolStep, peeringPoolReset, Pool.fresh]⟩
  | sample addr port epoch =>
      simp only [poolStep, peeringPoolSample]
      split
      · exact hkept _ (by simp)
      · rename_i p' hok
        obtain ⟨hepoch, hle, hp'⟩ := poolEpochOk_eq_some hok
        refine ⟨hepoch ▸ hle, ?_⟩
        intro a ha
        rcases hp' with rfl | hnone
        · exact .inr ⟨ha, rfl, by simp⟩
        · rw [hnone] at ha
          exact absurd ha (List.not_mem_nil)
  | note addr epoch =>
      simp only [poolStep, peeringPoolNote]
      split_ifs with hzero
      · exact hkept _ (by simp)
      · split
        · exact hkept _ (by simp)
        · rename_i p' hok
          obtain ⟨hepoch, hle, hp'⟩ := poolEpochOk_eq_some hok
          rw [epoch_add]
          refine ⟨hepoch ▸ hle, ?_⟩
          intro a ha
          rcases mem_add ha with ha | rfl
          · rcases hp' with rfl | hnone
            · exact .inr ⟨ha, rfl, by simp⟩
            · rw [hnone] at ha
              exact absurd ha (List.not_mem_nil)
          · exact .inl (by rw [hepoch])

/-! ## Runs -/

theorem epoch_run (p : Pool) (ops : List PoolOp) : p.epoch ≤ (run poolStep p ops).epoch := by
  induction ops generalizing p with
  | nil => exact UInt32.le_refl _
  | cons op ops ih => exact UInt32.le_trans (poolStep_cases p op).1 (ih _)

/-- A member was noted with the epoch of the pool, and no reset came after that. -/
theorem mem_run {ops : List PoolOp} {a : Addr4} (ha : a ∈ (run poolStep peeringPoolInit ops).v4) :
    ∃ pre post, ops = pre ++ .note a (run poolStep peeringPoolInit ops).epoch :: post ∧
      .reset ∉ post := by
  induction ops using List.reverseRecOn with
  | nil => exact absurd ha (List.not_mem_nil)
  | append_singleton ops op ih =>
      rw [run_concat] at ha ⊢
      rcases (poolStep_cases _ op).2 a ha with hop | ⟨ha, hepoch, hop⟩
      · exact ⟨ops, [], by rw [← hop], List.not_mem_nil⟩
      · obtain ⟨pre, post, hops, hreset⟩ := ih ha
        rw [hepoch]
        refine ⟨pre, post ++ [op], ?_, ?_⟩
        · conv_lhs => rw [hops]
          simp
        · simp [hreset, hop.symm]

/-- Whatever order the calls come in and whatever epochs they bring, the members are
distinct addresses noted on the pool's network after the last reset, its epoch does not
fall, and a copy for another network is empty. -/
theorem peeringPool_run (ops : List PoolOp) :
    (∀ a ∈ (run poolStep peeringPoolInit ops).v4, ∃ pre post,
      ops = pre ++ .note a (run poolStep peeringPoolInit ops).epoch :: post ∧ .reset ∉ post) ∧
    (run poolStep peeringPoolInit ops).v4.Nodup ∧
    addr4Zero ∉ (run poolStep peeringPoolInit ops).v4 ∧
    (run poolStep peeringPoolInit ops).v4.length ≤ peeringPool4Max ∧
    (∀ pre, pre <+: ops →
      (run poolStep peeringPoolInit pre).epoch ≤ (run poolStep peeringPoolInit ops).epoch) ∧
    ∀ epoch, epoch ≠ (run poolStep peeringPoolInit ops).epoch →
      peeringPoolCopy (run poolStep peeringPoolInit ops) epoch = [] := by
  refine ⟨fun a ha => mem_run ha, Pool.distinct _, Pool.nonzero _, Pool.within _, ?_, ?_⟩
  · rintro pre ⟨post, rfl⟩
    have hrun : run poolStep peeringPoolInit (pre ++ post) =
        run poolStep (run poolStep peeringPoolInit pre) post := by
      simp [run]
    rw [hrun]
    exact epoch_run _ post
  · intro epoch hne
    exact if_neg hne.symm

end Peering
end Comrade
