import Comrade.Lib.Bytes

/-!
# The order of byte strings

`strcmp` and `memcmp` order byte strings lexicographically: their signs are the order of the
lists of byte values (`strcmp_neg_iff`, `memcmp_neg_iff`).
-/

namespace Comrade
namespace Lib

/-- `strcmp` over two strings without their terminators, which count as a zero behind them. -/
def strcmp : Bytes → Bytes → Int
  | [], [] => 0
  | [], b :: _ => -(b.toNat : Int)
  | a :: _, [] => a.toNat
  | a :: as, b :: bs => if a = b then strcmp as bs else (a.toNat : Int) - b.toNat

theorem strcmp_nil_cons (b : UInt8) (bs : Bytes) : strcmp [] (b :: bs) = -(b.toNat : Int) := rfl

theorem strcmp_cons_nil (a : UInt8) (as : Bytes) : strcmp (a :: as) [] = a.toNat := rfl

theorem strcmp_cons (a b : UInt8) (as bs : Bytes) :
    strcmp (a :: as) (b :: bs) = if a = b then strcmp as bs else (a.toNat : Int) - b.toNat := rfl

/-- The values of the bytes. -/
def ranks (s : Bytes) : List Nat := s.map UInt8.toNat

theorem ranks_injective : Function.Injective ranks :=
  List.map_injective_iff.mpr fun _ _ => UInt8.toNat_inj.mp

theorem toNat_pos_of_ne_zero {c : UInt8} (h : c ≠ 0) : 0 < c.toNat :=
  Nat.pos_of_ne_zero (toNat_ne_of_ne h)

theorem ranks_cons_lt {a b : UInt8} {as bs : Bytes} (h : a ≠ b) :
    ranks (a :: as) < ranks (b :: bs) ↔ a.toNat < b.toNat := by
  have hne : a.toNat ≠ b.toNat := toNat_ne_of_ne h
  simp only [ranks, List.map_cons, List.cons_lt_cons_iff]
  omega

theorem ranks_cons_lt_self {a : UInt8} {as bs : Bytes} :
    ranks (a :: as) < ranks (a :: bs) ↔ ranks as < ranks bs := by
  simp [ranks]

theorem strcmp_neg_iff {a b : Bytes} (ha : (0 : UInt8) ∉ a) (hb : (0 : UInt8) ∉ b) :
    strcmp a b < 0 ↔ ranks a < ranks b := by
  induction a generalizing b with
  | nil =>
      cases b with
      | nil => exact iff_of_false (lt_irrefl _) (by simp [ranks])
      | cons y bs =>
          have hy := toNat_pos_of_ne_zero (fun h => hb (h ▸ List.mem_cons_self) : y ≠ 0)
          refine iff_of_true ?_ (by simp [ranks])
          rw [strcmp_nil_cons]
          omega
  | cons x as ih =>
      cases b with
      | nil => exact iff_of_false (by rw [strcmp_cons_nil]; omega) (by simp [ranks])
      | cons y bs =>
          by_cases hxy : x = y
          · subst hxy
            rw [strcmp_cons, if_pos rfl, ranks_cons_lt_self,
              ih (fun h => ha (.tail _ h)) (fun h => hb (.tail _ h))]
          · rw [strcmp_cons, if_neg hxy, ranks_cons_lt hxy]
            omega

theorem strcmp_eq_zero_iff {a b : Bytes} (ha : (0 : UInt8) ∉ a) (hb : (0 : UInt8) ∉ b) :
    strcmp a b = 0 ↔ a = b := by
  induction a generalizing b with
  | nil =>
      cases b with
      | nil => exact iff_of_true rfl rfl
      | cons y bs =>
          have hy := toNat_pos_of_ne_zero (fun h => hb (h ▸ List.mem_cons_self) : y ≠ 0)
          refine iff_of_false ?_ (by simp)
          rw [strcmp_nil_cons]
          omega
  | cons x as ih =>
      cases b with
      | nil =>
          have hx := toNat_pos_of_ne_zero (fun h => ha (h ▸ List.mem_cons_self) : x ≠ 0)
          refine iff_of_false ?_ (by simp)
          rw [strcmp_cons_nil]
          omega
      | cons y bs =>
          by_cases hxy : x = y
          · subst hxy
            rw [strcmp_cons, if_pos rfl, ih (fun h => ha (.tail _ h)) (fun h => hb (.tail _ h))]
            simp
          · have hne := toNat_ne_of_ne hxy
            rw [strcmp_cons, if_neg hxy]
            refine iff_of_false (by omega) (by simp [hxy])

theorem memcmp_neg_iff {a b : Bytes} (hlen : a.length = b.length) :
    memcmp a b < 0 ↔ ranks a < ranks b := by
  induction a generalizing b with
  | nil =>
      obtain rfl := List.length_eq_zero_iff.mp hlen.symm
      rw [memcmp_nil]
      simp [ranks]
  | cons x as ih =>
      cases b with
      | nil => simp at hlen
      | cons y bs =>
          by_cases hxy : x = y
          · subst hxy
            rw [memcmp_cons, if_pos rfl, ranks_cons_lt_self, ih (by simpa using hlen)]
          · rw [memcmp_cons, if_neg hxy, ranks_cons_lt hxy]
            omega

/-- Bytes that both buffers end with do not count. -/
theorem memcmp_append_right {a b : Bytes} (hlen : a.length = b.length) (z : Bytes) :
    memcmp (a ++ z) (b ++ z) = memcmp a b := by
  induction a generalizing b with
  | nil =>
      obtain rfl := List.length_eq_zero_iff.mp hlen.symm
      exact memcmp_self z
  | cons x as ih =>
      cases b with
      | nil => simp at hlen
      | cons y bs =>
          rw [List.cons_append, List.cons_append, memcmp_cons, memcmp_cons,
            ih (by simpa using hlen)]

end Lib
end Comrade
