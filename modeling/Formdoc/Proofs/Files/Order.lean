/-
The order of paths.

Texts are ordered character by character, and lists of parts part by part
(`Text.order_eq`, `orderParts_eq`).  Both are linear orders, as is the order of
parts itself; two paths that are equal in it name the same.

So there is one way to sort paths that all name different things: whatever
order they come in, `Path.sort` gives the same list (`Path.sort_eq_of_perm`),
and each path in it comes strictly before the later ones
(`Path.pairwise_before_sort`).
-/
import Formdoc.Files.Path
import Mathlib.Data.List.Nodup
import Mathlib.Order.Basic

namespace Formdoc

/-! ### Linear orders -/

theorem Text.order_eq : Text.order = List.compareLex (compareOn Char.toNat) := by
  funext s t
  induction s generalizing t with
  | nil => cases t <;> rfl
  | cons a s ih =>
    cases t with
    | nil => rfl
    | cons b t => rw [Text.order, ih, List.compareLex_cons_cons, compareOn]

theorem orderParts_eq : orderParts = List.compareLex PathPart.order := by
  funext ps qs
  induction ps generalizing qs with
  | nil => cases qs <;> rfl
  | cons p ps ih =>
    cases qs with
    | nil => rfl
    | cons q qs => rw [orderParts, ih, List.compareLex_cons_cons]

instance lawfulEqCmp_toNat : Std.LawfulEqCmp (compareOn Char.toNat) where
  compare_self := Std.ReflCmp.compare_self
  eq_of_compare h := Char.toNat_inj.1 (Std.LawfulEqCmp.eq_of_compare h)

instance : Std.TransCmp Text.order := by
  rw [Text.order_eq]
  infer_instance

instance : Std.LawfulEqCmp Text.order := by
  rw [Text.order_eq]
  infer_instance

-- Only two names are compared by more than what kind of part they are.
instance : Std.TransCmp PathPart.order where
  eq_swap {p q} := by
    cases p with
    | name a =>
      cases q with
      | name b => exact @Std.OrientedCmp.eq_swap Text _ _ a b
      | _ => rfl
    | _ => cases q <;> rfl
  isLE_trans {p q r} hpq hqr := by
    cases p with
    | name a =>
      cases q with
      | name b =>
        cases r with
        | name c => exact @Std.TransCmp.isLE_trans Text _ _ a b c hpq hqr
        | _ => cases hqr
      | _ => cases hpq
    | _ => cases q <;> cases r <;> trivial

instance : Std.LawfulEqCmp PathPart.order where
  compare_self {p} := by
    cases p with
    | name a => exact @Std.ReflCmp.compare_self Text _ _ a
    | _ => rfl
  eq_of_compare {p q} h := by
    cases p with
    | name a =>
      cases q with
      | name b => exact congrArg PathPart.name (@Std.LawfulEqCmp.eq_of_compare Text _ _ a b h)
      | _ => cases h
    | _ => cases q <;> first | rfl | cases h

instance : Std.TransCmp orderParts := by
  rw [orderParts_eq]
  infer_instance

instance : Std.LawfulEqCmp orderParts := by
  rw [orderParts_eq]
  infer_instance

/-! ### Sorted paths -/

namespace Path

/-- The path comes before the other one, and does not name the same. -/
def Before (p q : Text) : Prop :=
  orderParts (parts p) (parts q) = .lt

theorem sort_perm (ps : List Text) : (sort ps).Perm ps :=
  List.mergeSort_perm ps le

theorem pairwise_sort (ps : List Text) : (sort ps).Pairwise fun p q => le p q = true := by
  refine List.pairwise_mergeSort (fun p q r hpq hqr => ?_) (fun p q => ?_) ps
  · exact Std.TransCmp.isLE_trans hpq hqr
  · rw [le, le, @Std.OrientedCmp.eq_swap _ orderParts _ (parts q) (parts p)]
    cases orderParts (parts p) (parts q) <;> rfl

theorem parts_eq_of_le {p q : Text} (hpq : le p q = true) (hqp : le q p = true) :
    parts p = parts q :=
  Std.LawfulEqCmp.eq_of_compare (Std.OrientedCmp.isLE_antisymm hpq hqp)

/-- Sorted paths that all name different things come strictly one before another. -/
theorem pairwise_before_sort {ps : List Text} (h : (ps.map parts).Nodup) :
    (sort ps).Pairwise Before := by
  have hne : (sort ps).Pairwise fun p q => parts p ≠ parts q :=
    List.pairwise_map.1 (((sort_perm ps).map parts).nodup_iff.2 h)
  refine (pairwise_sort ps).imp₂ (fun p q hle hne => ?_) hne
  have heq : orderParts (parts p) (parts q) ≠ .eq := fun heq =>
    hne (Std.LawfulEqCmp.eq_of_compare heq)
  rw [le] at hle
  rw [Before]
  cases hcmp : orderParts (parts p) (parts q) with
  | lt => rfl
  | eq => exact absurd hcmp heq
  | gt => rw [hcmp] at hle; cases hle

/-- Paths that all name different things are sorted in one way, whatever order they come in. -/
theorem sort_eq_of_perm {ps qs : List Text} (hperm : ps.Perm qs) (h : (ps.map parts).Nodup) :
    sort ps = sort qs := by
  have hsorts : (sort ps).Perm (sort qs) :=
    (sort_perm ps).trans (hperm.trans (sort_perm qs).symm)
  refine List.Perm.eq_of_pairwise (fun p q hp hq hpq hqp => ?_) (pairwise_sort ps)
    (pairwise_sort qs) hsorts
  -- Both are among the first paths, no two of which name the same.
  have hinj := List.inj_on_of_nodup_map h
  exact hinj ((sort_perm ps).mem_iff.1 hp) (hperm.mem_iff.2 ((sort_perm qs).mem_iff.1 hq))
    (parts_eq_of_le hpq hqp)

end Path

end Formdoc
