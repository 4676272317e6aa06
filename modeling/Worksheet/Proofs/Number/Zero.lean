import Mathlib
import Worksheet.Number.Display

/-!
# Zeros in sums

There are two zeros, and they are shown alike.

* `Number.IsZero`      zero, of either sign;
* `Number.Same`        the same number, or two zeros;
* `Number.Same.add`, `Number.same_add_of_isZero`
                       sums of the same numbers are the same, also if a zero is added;
* `Number.Same.format` the same numbers are shown alike.
-/

namespace Worksheet

namespace Number

def IsZero (x : Float) : Prop := ∃ sign, x.toModel.unpack = .zero sign

theorem isZero_zero : IsZero 0 := ⟨.positive, by rfl⟩

/-- the sign of a zero does not matter -/
def Same (x y : Float) : Prop := x = y ∨ IsZero x ∧ IsZero y

theorem pack_unpack (m : Float.Model) : Float.Model.pack m.unpack = m := by
  obtain ⟨bits, hvalid⟩ := m
  have h := Float.Model.UnpackedFloat.pack_unpack_of_valid hvalid
  simp only [Float.Model.pack, Float.Model.unpack, h]

theorem add_eq (x y : Float) : x + y = .ofModel (.pack
    (.add .binary64 x.toModel.unpack y.toModel.unpack)) := rfl

/-! ## sums -/

section
variable {x y v : Float}

theorem isZero_add (hx : IsZero x) (hv : IsZero v) : IsZero (x + v) := by
  obtain ⟨sx, hx⟩ := hx
  obtain ⟨sv, hv⟩ := hv
  rw [add_eq, hx, hv]
  cases sx <;> cases sv <;> exact ⟨_, rfl⟩

theorem add_of_isZero_left (hx : IsZero x) (hv : ¬IsZero v) : x + v = v := by
  obtain ⟨sx, hx⟩ := hx
  have h : Float.Model.UnpackedFloat.add .binary64 x.toModel.unpack v.toModel.unpack
      = v.toModel.unpack := by
    rw [hx]
    cases hu : v.toModel.unpack with
    | zero sv => exact absurd ⟨sv, hu⟩ hv
    | _ => rfl
  rw [add_eq, h, pack_unpack]

theorem add_of_isZero_right (hv : IsZero v) (hx : ¬IsZero x) : x + v = x := by
  obtain ⟨sv, hv⟩ := hv
  have h : Float.Model.UnpackedFloat.add .binary64 x.toModel.unpack v.toModel.unpack
      = x.toModel.unpack := by
    rw [hv]
    cases hu : x.toModel.unpack with
    | zero sx => exact absurd ⟨sx, hu⟩ hx
    | _ => rfl
  rw [add_eq, h, pack_unpack]

theorem same_add_of_isZero (hv : IsZero v) : Same (x + v) x := by
  by_cases hx : IsZero x
  · exact .inr ⟨isZero_add hx hv, hx⟩
  · exact .inl (add_of_isZero_right hv hx)

theorem Same.add (h : Same x y) (v : Float) : Same (x + v) (y + v) := by
  rcases h with rfl | ⟨hx, hy⟩
  · exact .inl rfl
  · by_cases hv : IsZero v
    · exact .inr ⟨isZero_add hx hv, isZero_add hy hv⟩
    · exact .inl ((add_of_isZero_left hx hv).trans (add_of_isZero_left hy hv).symm)

theorem Same.trans {z : Float} (h : Same x y) (h' : Same y z) : Same x z := by
  rcases h with rfl | ⟨hx, hy⟩
  · exact h'
  · rcases h' with rfl | ⟨_, hz⟩
    · exact .inr ⟨hx, hy⟩
    · exact .inr ⟨hx, hz⟩

/-! ## zeros as they are shown -/

theorem format_of_isZero (h : IsZero x) : format x = ['0'] := by
  obtain ⟨sign, h⟩ := h
  have e : x = .ofModel (.pack (.zero sign)) :=
    congrArg Float.ofModel ((pack_unpack x.toModel).symm.trans (congrArg Float.Model.pack h))
  rw [e]
  cases sign <;> decide +kernel

theorem Same.format (h : Same x y) : format x = Number.format y := by
  rcases h with rfl | ⟨hx, hy⟩
  · rfl
  · rw [format_of_isZero hx, format_of_isZero hy]

end

end Number

end Worksheet
