import Mathlib
import PagedMap.Shape

/-!
# The order of data

The data of every shape are linearly ordered.  This is shown for the ways in which orders are
combined, `Lexicographic.option`, `Lexicographic.pair` and `Lexicographic.list`, and for shapes by
recursion.  What is said elsewhere about keys assumes `Std.IsLinearOrder` and nothing more.
-/

namespace PagedMap

/-- A comparison that is a linear order. -/
structure IsLinear {α : Type} (le : α → α → Bool) : Prop where
  antisymm : ∀ x y, le x y → le y x → x = y
  trans : ∀ x y z, le x y → le y z → le x z
  total : ∀ x y, le x y ∨ le y x

namespace IsLinear

variable {α β : Type} {le : α → α → Bool} {le' : β → β → Bool}

theorem refl (h : IsLinear le) (x : α) : le x x := or_self_iff.mp (h.total x x)

theorem option (h : IsLinear le) : IsLinear (Lexicographic.option le) where
  antisymm
    | none, none, _, _ => rfl
    | some x, some y, hxy, hyx => congrArg some (h.antisymm x y hxy hyx)
  trans
    | none, _, _, _, _ => rfl
    | some x, some y, some z, hxy, hyz => h.trans x y z hxy hyz
  total
    | none, _ => Or.inl rfl
    | some _, none => Or.inr rfl
    | some x, some y => h.total x y

theorem pair (h : IsLinear le) (h' : IsLinear le') : IsLinear (Lexicographic.pair le le') := by
  refine ⟨?_, ?_, ?_⟩
  · rintro ⟨a, b⟩ ⟨c, d⟩ hxy hyx
    simp only [Lexicographic.pair, Bool.and_eq_true, Bool.or_eq_true, Bool.not_eq_true'] at hxy hyx
    obtain rfl := h.antisymm a c hxy.1 hyx.1
    have hrefl := h.refl a
    have hbd : le' b d := hxy.2.resolve_left (by simp [hrefl])
    have hdb : le' d b := hyx.2.resolve_left (by simp [hrefl])
    rw [h'.antisymm b d hbd hdb]
  · rintro ⟨a, b⟩ ⟨c, d⟩ ⟨p, q⟩ hxy hyz
    simp only [Lexicographic.pair, Bool.and_eq_true, Bool.or_eq_true,
      Bool.not_eq_true'] at hxy hyz ⊢
    refine ⟨h.trans a c p hxy.1 hyz.1, ?_⟩
    by_cases hpa : le p a
    · have hca : le c a := h.trans c p a hyz.1 hpa
      have hpc : le p c := h.trans p a c hpa hxy.1
      have hbd : le' b d := hxy.2.resolve_left (by simp [hca])
      have hdq : le' d q := hyz.2.resolve_left (by simp [hpc])
      exact Or.inr (h'.trans b d q hbd hdq)
    · exact Or.inl (by simpa using hpa)
  · rintro ⟨a, b⟩ ⟨c, d⟩
    simp only [Lexicographic.pair, Bool.and_eq_true, Bool.or_eq_true, Bool.not_eq_true']
    have hac := h.total a c
    have hbd := h'.total b d
    by_cases hca : le c a <;> by_cases hac' : le a c <;> simp_all

theorem list (h : IsLinear le) : IsLinear (Lexicographic.list le) := by
  refine ⟨?_, ?_, ?_⟩
  · intro xs
    induction xs with
    | nil => rintro (_ | ⟨y, ys⟩) hxy hyx <;> simp_all [Lexicographic.list]
    | cons x xs ih =>
      rintro (_ | ⟨y, ys⟩) hxy hyx
      · simp [Lexicographic.list] at hxy
      · simp only [Lexicographic.list, Bool.and_eq_true, Bool.or_eq_true,
          Bool.not_eq_true'] at hxy hyx
        obtain rfl := h.antisymm x y hxy.1 hyx.1
        have hrefl := h.refl x
        rw [ih ys (hxy.2.resolve_left (by simp [hrefl])) (hyx.2.resolve_left (by simp [hrefl]))]
  · intro xs
    induction xs with
    | nil => intros; rfl
    | cons x xs ih =>
      rintro (_ | ⟨y, ys⟩) (_ | ⟨z, zs⟩) hxy hyz <;> try simp [Lexicographic.list] at hxy hyz
      simp only [Lexicographic.list, Bool.and_eq_true, Bool.or_eq_true, Bool.not_eq_true']
      refine ⟨h.trans x y z hxy.1 hyz.1, ?_⟩
      by_cases hzx : le z x
      · have hyx : le y x := h.trans y z x hyz.1 hzx
        have hzy : le z y := h.trans z x y hzx hxy.1
        exact Or.inr (ih ys zs (hxy.2.resolve_left (by simp [hyx]))
          (hyz.2.resolve_left (by simp [hzy])))
      · exact Or.inl (by simpa using hzx)
  · intro xs
    induction xs with
    | nil => intros; exact Or.inl rfl
    | cons x xs ih =>
      rintro (_ | ⟨y, ys⟩)
      · exact Or.inr rfl
      · simp only [Lexicographic.list, Bool.and_eq_true, Bool.or_eq_true, Bool.not_eq_true']
        have hxy := h.total x y
        have hrest := ih ys
        by_cases hyx : le y x <;> by_cases hxy' : le x y <;> simp_all

theorem of_order [LE α] [DecidableLE α] [Std.IsLinearOrder α] :
    IsLinear fun x y : α => decide (x ≤ y) where
  antisymm x y hxy hyx := by
    simp only [decide_eq_true_eq] at hxy hyx
    exact Std.le_antisymm hxy hyx
  trans x y z hxy hyz := by
    simp only [decide_eq_true_eq] at hxy hyz ⊢
    exact Std.le_trans hxy hyz
  total x y := by
    simp only [decide_eq_true_eq]
    exact Std.le_total

theorem ule (n : Nat) : IsLinear (BitVec.ule (n := n)) := by
  have h := of_order (α := BitVec n)
  simpa only [BitVec.le_def, ← BitVec.ule_eq_decide] using h

theorem sle (n : Nat) : IsLinear (BitVec.sle (n := n)) := by
  refine ⟨fun x y hxy hyx => ?_, fun x y z hxy hyz => ?_, fun x y => ?_⟩
  · rw [BitVec.sle_iff_toInt_le] at hxy hyx
    exact BitVec.eq_of_toInt_eq (by omega)
  · rw [BitVec.sle_iff_toInt_le] at hxy hyz ⊢
    omega
  · rw [BitVec.sle_iff_toInt_le, BitVec.sle_iff_toInt_le]
    omega

end IsLinear

namespace Shape

/-- The order of the data of a shape is linear. -/
theorem isLinear_le : (s : Shape) → IsLinear s.le
  | .uint w => IsLinear.ule w.bits
  | .int w => IsLinear.sle w.bits
  | .bool => by refine ⟨?_, ?_, ?_⟩ <;> simp [le, Datum]
  | .char => IsLinear.of_order (α := Char)
  | .string => IsLinear.of_order (α := String)
  | .bytes => (IsLinear.of_order (α := UInt8)).list
  | .option s => s.isLinear_le.option
  | .pair a b => a.isLinear_le.pair b.isLinear_le
  | .triple a b c => a.isLinear_le.pair (b.isLinear_le.pair c.isLinear_le)

instance (s : Shape) : Std.IsLinearOrder s.Datum where
  le_refl x := s.isLinear_le.refl x
  le_trans := s.isLinear_le.trans
  le_antisymm := s.isLinear_le.antisymm
  le_total := s.isLinear_le.total

end Shape

end PagedMap
