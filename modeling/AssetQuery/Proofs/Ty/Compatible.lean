import AssetQuery.Builtin.Basic

/-!
# Compatible types

Compatibility is an order: `any` is above everything, each class above the types that are in it, and
arrays and maps follow their elements. Compatible types are dispatched alike, unless the one that is
expected is `any`.
-/

namespace AssetQuery.Ty

/-- Whether values of a type may stand where the other is declared, by the shape of the two. -/
inductive Fits : Ty → Ty → Prop
  | any {t : Ty} : Fits t .any
  | refl {t : Ty} : Fits t t
  | arrayLike {elem : Ty} : Fits (.array elem) .arrayLike
  | mapLike {key value : Ty} : Fits (.map key value) .mapLike
  | resourceLike {name : String} : Fits (.resource name) .resourceLike
  | array {elem elem' : Ty} : Fits elem elem' → Fits (.array elem) (.array elem')
  | map {key key' value value' : Ty} : Fits key key' → Fits value value' →
    Fits (.map key value) (.map key' value')

theorem fits_of_compatible {t expected : Ty} (h : t.compatible expected) : t.Fits expected := by
  induction t generalizing expected with
  | array elem ih =>
    cases expected with
    | any => exact .any
    | arrayLike => exact .arrayLike
    | array elem' => exact .array (ih (by simpa [compatible] using h))
    | _ => simp [compatible, isMap, isResource] at h
  | map key value ihkey ihvalue =>
    cases expected with
    | any => exact .any
    | mapLike => exact .mapLike
    | map key' value' =>
      simp only [compatible, Bool.and_eq_true] at h
      exact .map (ihkey h.1) (ihvalue h.2)
    | _ => simp [compatible, isArray, isResource] at h
  | resource name =>
    cases expected with
    | any => exact .any
    | resourceLike => exact .resourceLike
    | resource name' =>
      simp only [compatible, beq_iff_eq] at h
      exact h ▸ .refl
    | _ => simp [compatible, isArray, isMap] at h
  | _ =>
    cases expected <;>
      first
      | exact .any
      | exact .refl
      | simp [compatible, isArray, isMap, isResource] at h

theorem compatible_refl (t : Ty) : t.compatible t := by
  induction t with
  | array elem ih => simpa [compatible] using ih
  | map key value ihkey ihvalue => simpa [compatible] using ⟨ihkey, ihvalue⟩
  | _ => simp [compatible, isArray, isMap, isResource]

theorem compatible_of_fits {t expected : Ty} (h : t.Fits expected) : t.compatible expected := by
  induction h with
  | any => simp [compatible]
  | @refl t => exact compatible_refl t
  | array _ ih => simpa [compatible] using ih
  | map _ _ ihkey ihvalue => simpa [compatible] using ⟨ihkey, ihvalue⟩
  | _ => simp [compatible, isArray, isMap, isResource]

theorem Fits.trans {t u w : Ty} (h : t.Fits u) (h' : u.Fits w) : t.Fits w := by
  induction h generalizing w with
  | any =>
    cases h' with
    | any => exact .any
    | refl => exact .any
  | refl => exact h'
  | arrayLike =>
    cases h' with
    | any => exact .any
    | refl => exact .arrayLike
  | mapLike =>
    cases h' with
    | any => exact .any
    | refl => exact .mapLike
  | resourceLike =>
    cases h' with
    | any => exact .any
    | refl => exact .resourceLike
  | array h ih =>
    cases h' with
    | any => exact .any
    | refl => exact .array h
    | arrayLike => exact .arrayLike
    | array h' => exact .array (ih h')
  | map hkey hvalue ihkey ihvalue =>
    cases h' with
    | any => exact .any
    | refl => exact .map hkey hvalue
    | mapLike => exact .mapLike
    | map hkey' hvalue' => exact .map (ihkey hkey') (ihvalue hvalue')

private theorem Fits.antisymm {t u : Ty} (h : t.Fits u) (h' : u.Fits t) : t = u := by
  induction h with
  | any =>
    cases h' with
    | any => rfl
    | refl => rfl
  | refl => rfl
  | arrayLike => cases h'
  | mapLike => cases h'
  | resourceLike => cases h'
  | array _ ih =>
    cases h' with
    | refl => rfl
    | array h' => rw [ih h']
  | map _ _ ihkey ihvalue =>
    cases h' with
    | refl => rfl
    | map hkey hvalue => rw [ihkey hkey, ihvalue hvalue]

/-- Compatible types are dispatched alike, unless nothing is known of the one expected. -/
theorem Fits.underlying_eq {t expected : Ty} (h : t.Fits expected) (hany : expected ≠ .any) :
    t.underlying = expected.underlying := by
  cases h with
  | any => exact absurd rfl hany
  | _ => rfl

theorem eq_of_underlying_eq_string {t : Ty} (h : t.underlying = .string) : t = .string := by
  cases t with
  | string => rfl
  | _ => cases h

theorem eq_of_underlying_eq_bool {t : Ty} (h : t.underlying = .bool) : t = .bool := by
  cases t with
  | bool => rfl
  | _ => cases h

private theorem lookup?_eq_of_underlying_eq {Rule Form : Type} {t u : Ty}
    (h : t.underlying = u.underlying) (builtins : Builtins Rule Form) (name : String) :
    builtins.lookup? t name = builtins.lookup? u name := by
  have hhandlers : builtins.handlers t = builtins.handlers u := by
    rw [Builtins.handlers, Builtins.handlers, h]
  rw [Builtins.lookup?, Builtins.lookup?, hhandlers]

/-- Compatibility is a partial order with `any` at its top, and whatever is compatible with a type
other than `any` is of its class and meets the same built-in functions. -/
theorem compatible_order (a b c : Ty) :
    a.compatible a ∧
      (a.compatible b → b.compatible c → a.compatible c) ∧
      (a.compatible b → b.compatible a → a = b) ∧
      a.compatible .any ∧
      (a.compatible b → b ≠ .any → a.underlying = b.underlying ∧
        ∀ {Rule Form : Type} (builtins : Builtins Rule Form) (name : String),
          builtins.lookup? a name = builtins.lookup? b name) := by
  refine ⟨compatible_refl a, fun hab hbc => ?_, fun hab hba => ?_, compatible_of_fits .any,
    fun hab hany => ?_⟩
  · have hfits := (fits_of_compatible hab).trans (fits_of_compatible hbc)
    exact compatible_of_fits hfits
  · exact (fits_of_compatible hab).antisymm (fits_of_compatible hba)
  · have hclass := (fits_of_compatible hab).underlying_eq hany
    exact ⟨hclass, lookup?_eq_of_underlying_eq hclass⟩

/-- From arrays of numbers over arrays of anything to the class of arrays. -/
theorem compatible_order_arrays :
    (array int).compatible (array any) ∧ (array any).compatible arrayLike ∧
      (array int).compatible arrayLike ∧ (array int).underlying = arrayLike.underlying := by
  have hint : (array int).compatible (array any) := rfl
  have hany : (array any).compatible arrayLike := rfl
  obtain ⟨_, htrans, _⟩ := compatible_order (array int) (array any) arrayLike
  obtain ⟨_, _, _, _, hclass⟩ := compatible_order (array int) arrayLike any
  have harray := htrans hint hany
  exact ⟨hint, hany, harray, (hclass harray (by decide)).1⟩

end AssetQuery.Ty
