import Comrade.Lib.Bytes

/-!
# Records in a stream

A stream that carries records, each closed by a byte that stands in none of them.  A reader
holds what has arrived and takes the whole records off the front of it.

* `takeRecords` is the reader's loop.
* `takeRecords_part`: of a part of a stream of records it takes the records that are whole,
  and holds less than the next one.
-/

namespace Comrade
namespace Lib

variable {stop : UInt8}

/-- The records that are whole, and what is left behind them. -/
def takeRecords (stop : UInt8) (s : Bytes) : List Bytes × Bytes :=
  if stop ∈ s then
    let b := s.takeWhile fun c => c != stop
    let r := takeRecords stop (s.drop (b.length + 1))
    (b :: r.1, r.2)
  else ([], s)
termination_by s.length
decreasing_by
  have hpos : 0 < s.length := List.length_pos_of_mem ‹stop ∈ s›
  rw [List.length_drop]
  omega

theorem takeRecords_none {s : Bytes} (h : stop ∉ s) : takeRecords stop s = ([], s) := by
  rw [takeRecords, if_neg h]

theorem takeRecords_record {b : Bytes} (h : stop ∉ b) (rest : Bytes) :
    takeRecords stop (b ++ stop :: rest) =
      (b :: (takeRecords stop rest).1, (takeRecords stop rest).2) := by
  have htake : (b ++ stop :: rest).takeWhile (fun c => c != stop) = b := by
    rw [List.takeWhile_append_of_pos]
    · simp
    · intro c hc
      simp only [bne_iff_ne, ne_eq]
      rintro rfl
      exact h hc
  have hdrop : (b ++ stop :: rest).drop (b.length + 1) = rest := by
    rw [← List.drop_drop, List.drop_left, List.drop_one, List.tail_cons]
  rw [takeRecords, if_pos (by simp)]
  simp only [htake, hdrop]

/-- What is left holds no whole record. -/
theorem takeRecords_left (s : Bytes) : stop ∉ (takeRecords stop s).2 := by
  induction s using takeRecords.induct stop with
  | case1 s hmem b ih =>
      rw [takeRecords, if_pos hmem]
      exact ih
  | case2 s hmem =>
      rw [takeRecords, if_neg hmem]
      exact hmem

/-- The bytes of a stream of records. -/
def recordStream (stop : UInt8) (bs : List Bytes) : Bytes := (bs.map fun b => b ++ [stop]).flatten

@[simp] theorem recordStream_nil : recordStream stop [] = [] := rfl

@[simp] theorem recordStream_cons (b : Bytes) (bs : List Bytes) :
    recordStream stop (b :: bs) = b ++ stop :: recordStream stop bs := by
  simp [recordStream]

theorem recordStream_append (bs bs' : List Bytes) :
    recordStream stop (bs ++ bs') = recordStream stop bs ++ recordStream stop bs' := by
  simp [recordStream]

/-- On a part of a stream of records, the loop takes the records that are whole and leaves
less than the next. -/
theorem takeRecords_part {bs : List Bytes} (hbs : ∀ b ∈ bs, stop ∉ b) {s tail : Bytes}
    (hpart : s ++ tail = recordStream stop bs) :
    ∃ now later, bs = now ++ later ∧ (takeRecords stop s).1 = now ∧
      (takeRecords stop s).2 ++ tail = recordStream stop later ∧
      ∀ n, (∀ b ∈ bs, b.length ≤ n) → (takeRecords stop s).2.length ≤ n := by
  induction bs generalizing s with
  | nil =>
      rw [recordStream_nil, List.append_eq_nil_iff] at hpart
      obtain ⟨rfl, rfl⟩ := hpart
      refine ⟨[], [], rfl, ?_⟩
      rw [takeRecords_none (by simp)]
      simp
  | cons b bs ih =>
      obtain ⟨hb, hrest⟩ := List.forall_mem_cons.mp hbs
      rw [recordStream_cons] at hpart
      by_cases hmem : stop ∈ s
      · -- the first record is whole
        obtain ⟨s', rfl⟩ : ∃ s', s = b ++ stop :: s' := by
          rcases List.append_eq_append_iff.mp hpart with ⟨c, hc, -⟩ | ⟨c, hs, htail⟩
          · rw [hc] at hb
            exact absurd (List.mem_append_left _ hmem) hb
          · cases c with
            | nil =>
                rw [List.append_nil] at hs
                exact absurd (hs ▸ hmem) hb
            | cons d c =>
                rw [List.cons_append, List.cons.injEq] at htail
                exact ⟨c, by rw [hs, htail.1]⟩
        rw [List.append_assoc, List.cons_append, List.append_cancel_left_eq,
          List.cons.injEq] at hpart
        obtain ⟨now, later, hsplit, hnow, hlater, hlen⟩ := ih hrest hpart.2
        rw [takeRecords_record hb]
        refine ⟨b :: now, later, by rw [hsplit, List.cons_append], by rw [hnow], hlater, ?_⟩
        intro n hn
        exact hlen n (List.forall_mem_cons.mp hn).2
      · -- it is not
        rw [takeRecords_none hmem]
        refine ⟨[], b :: bs, rfl, rfl, by rw [hpart, recordStream_cons], ?_⟩
        intro n hn
        have hbn := hn b List.mem_cons_self
        rcases List.append_eq_append_iff.mp hpart with ⟨c, rfl, -⟩ | ⟨c, hs, htail⟩
        · rw [List.length_append] at hbn
          simp only
          omega
        · cases c with
          | nil =>
              rw [hs, List.append_nil]
              exact hbn
          | cons d c =>
              rw [List.cons_append, List.cons.injEq] at htail
              exact absurd (by simp [hs, htail.1]) hmem

end Lib
end Comrade
