import Mathlib.Data.String.Basic
import Mathlib.Data.UInt

/-!
# The order of texts is that of their bytes

Texts are compared letter by letter.  Comparing their bytes in UTF-8 gives the same order
(`bytes_lt_bytes`): of two different letters the smaller one has the smaller byte where their
codes first differ, and no code begins another.
-/

namespace LiveMarkup

/-- The bytes of a text in UTF-8. -/
def bytes (s : String) : List UInt8 := s.toUTF8.data.toList

theorem bytes_eq (s : String) : bytes s = s.toList.flatMap String.utf8EncodeChar := by
  have hencode : s.toUTF8 = s.toList.utf8Encode := by
    conv_lhs => rw [← String.ofList_toList (s := s)]
    rfl
  rw [bytes, hencode, List.utf8Encode, List.data_toByteArray]

theorem ofNat_lt_ofNat_iff {a b : ℕ} (ha : a < 256) (hb : b < 256) :
    UInt8.ofNat a < UInt8.ofNat b ↔ a < b := by
  rw [UInt8.lt_iff_toNat_lt, UInt8.toNat_ofNat_of_lt' ha, UInt8.toNat_ofNat_of_lt' hb]

theorem ofNat_eq_ofNat_iff {a b : ℕ} (ha : a < 256) (hb : b < 256) :
    UInt8.ofNat a = UInt8.ofNat b ↔ a = b := by
  rw [← UInt8.toNat_inj, UInt8.toNat_ofNat_of_lt' ha, UInt8.toNat_ofNat_of_lt' hb]

/-- Numbers are compared by their last digits if the others agree. -/
theorem div_lt_or_mod_lt {v w : ℕ} (h : v < w) :
    v / 64 < w / 64 ∨ v / 64 = w / 64 ∧ v % 64 < w % 64 := by
  omega

/-- The code of a smaller letter is smaller, whatever follows. -/
theorem utf8EncodeChar_append_lt {c d : Char} (h : c < d) (xs ys : List UInt8) :
    String.utf8EncodeChar c ++ xs < String.utf8EncodeChar d ++ ys := by
  have hlt : c.val.toNat < d.val.toNat := h
  have hd : d.val.toNat < 1114112 := by
    rcases d.valid with hd | ⟨-, hd⟩
    · exact Nat.lt_trans hd (by decide)
    · exact hd
  unfold String.utf8EncodeChar
  generalize c.val.toNat = v at hlt
  generalize d.val.toNat = w at hlt hd
  -- A code is cut into digits, of which the first byte has the first one.
  have hv : v / 4096 = v / 64 / 64 ∧ v / 262144 = v / 64 / 64 / 64 := by omega
  have hw : w / 4096 = w / 64 / 64 ∧ w / 262144 = w / 64 / 64 / 64 := by omega
  have hdigits := div_lt_or_mod_lt hlt
  have hdigits' := fun h : v / 64 < w / 64 => div_lt_or_mod_lt h
  have hdigits'' := fun h : v / 64 / 64 < w / 64 / 64 => div_lt_or_mod_lt h
  have hv' : v / 64 / 64 / 64 % 8 = v / 64 / 64 / 64 := Nat.mod_eq_of_lt (by omega)
  have hw' : w / 64 / 64 / 64 % 8 = w / 64 / 64 / 64 := Nat.mod_eq_of_lt (by omega)
  simp only [hv.1, hv.2, hw.1, hw.2, hv', hw']
  split_ifs <;>
    simp (disch := omega) only [List.cons_append, List.cons_lt_cons_iff, List.nil_append,
      ofNat_lt_ofNat_iff, ofNat_eq_ofNat_iff] <;>
    omega

theorem append_lt_append_left (xs : List UInt8) {ys zs : List UInt8} (h : ys < zs) :
    xs ++ ys < xs ++ zs := by
  induction xs with
  | nil => exact h
  | cons x xs ih => exact List.cons_lt_cons_iff.2 (Or.inr ⟨rfl, ih⟩)

/-- A smaller text has smaller bytes. -/
theorem bytes_lt_bytes {s t : String} (h : s < t) : bytes s < bytes t := by
  rw [bytes_eq, bytes_eq]
  rw [String.lt_iff_toList_lt] at h
  generalize s.toList = cs at h
  generalize t.toList = ds at h
  induction h with
  | @nil d ds =>
    rw [List.flatMap_cons, List.flatMap_nil]
    have hne : String.utf8EncodeChar d ++ ds.flatMap String.utf8EncodeChar ≠ [] := by
      simp
    obtain ⟨x, xs, hxs⟩ := List.exists_cons_of_ne_nil hne
    rw [hxs]
    exact List.nil_lt_cons x xs
  | cons _ ih => exact append_lt_append_left _ ih
  | rel hlt => exact utf8EncodeChar_append_lt hlt _ _

end LiveMarkup
