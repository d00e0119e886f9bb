import Mathlib.Data.List.Lex
import Mathlib.Data.String.Basic
import ScriptBuild.Text.Utf8

/-!
# The order of texts is that of their bytes

Texts are ordered by their characters. `utf8_lt_iff`: the bytes that spell them are in the same
order, since the bytes of a greater character are greater at the first place where they differ.
-/

namespace ScriptBuild.Text

theorem utf8_eq_flatMap (s : String) : utf8 s = s.toList.flatMap String.utf8EncodeChar := by
  rw [utf8, ← String.utf8Encode_toList, List.utf8Encode, List.toList_data_toByteArray]

theorem append_lt_append_of_length_eq {xs ys : List UInt8} (hlength : xs.length = ys.length)
    (h : xs < ys) (as bs : List UInt8) : xs ++ as < ys ++ bs := by
  induction xs generalizing ys with
  | nil =>
    cases ys with
    | nil => exact absurd h (List.lt_irrefl [])
    | cons _ _ => cases hlength
  | cons x xs ih =>
    cases ys with
    | nil => cases hlength
    | cons y ys =>
      rw [List.cons_append, List.cons_append, List.cons_lt_cons_iff]
      rcases List.cons_lt_cons_iff.mp h with hlt | ⟨rfl, hrest⟩
      · exact .inl hlt
      · exact .inr ⟨rfl, ih (Nat.succ.inj hlength) hrest⟩

theorem ofNat_cons_lt {i j : Nat} (hlt : i < j) (hj : j < 256) (xs ys : List UInt8) :
    UInt8.ofNat i :: xs < UInt8.ofNat j :: ys := by
  refine List.cons_lt_cons_iff.mpr (.inl (UInt8.lt_iff_toNat_lt.mpr ?_))
  rw [UInt8.toNat_ofNat', UInt8.toNat_ofNat']
  omega

theorem encode_lt {c d : Char} (h : c < d) (xs ys : List UInt8) :
    String.utf8EncodeChar c ++ xs < String.utf8EncodeChar d ++ ys := by
  have hlt : c.val.toNat < d.val.toNat := h
  have hmax : d.val.toNat < 0x110000 := by
    have := d.valid
    simp only [UInt32.isValidChar, Nat.isValidChar] at this
    omega
  simp only [String.utf8EncodeChar]
  generalize c.val.toNat = m at hlt
  generalize d.val.toNat = n at hlt hmax
  -- a greater character takes no fewer bytes; where it takes more, its first byte is greater
  split_ifs
  all_goals try omega
  all_goals try exact ofNat_cons_lt (by omega) (by omega) _ _
  -- two, three or four bytes each
  all_goals
    apply append_lt_append_of_length_eq
    · rfl
    · simp only [List.cons_lt_cons_iff, List.lt_irrefl, UInt8.lt_iff_toNat_lt, ← UInt8.toNat_inj,
        UInt8.toNat_ofNat', and_false, or_false]
      simp (disch := omega) only [Nat.mod_eq_of_lt]
      omega

theorem utf8_lt_of_lt {s t : String} (h : s < t) : utf8 s < utf8 t := by
  rw [utf8_eq_flatMap, utf8_eq_flatMap]
  have hchars : List.Lex (· < ·) s.toList t.toList := String.lt_iff.mp h
  generalize s.toList = cs at hchars
  generalize t.toList = ds at hchars
  induction hchars with
  | @nil d ds =>
    have hne : String.utf8EncodeChar d ≠ [] := String.utf8EncodeChar_ne_nil
    obtain ⟨first, rest, hfirst⟩ := List.exists_cons_of_ne_nil hne
    rw [List.flatMap_nil, List.flatMap_cons, hfirst, List.cons_append]
    exact List.Lex.nil
  | @cons c cs ds _ ih =>
    rw [List.flatMap_cons, List.flatMap_cons]
    exact List.append_left_lt ih
  | rel h => exact encode_lt h _ _

theorem utf8_lt_iff {s t : String} : utf8 s < utf8 t ↔ s < t := by
  refine ⟨fun h => ?_, utf8_lt_of_lt⟩
  rcases lt_trichotomy s t with hlt | rfl | hgt
  · exact hlt
  · exact absurd h (List.lt_irrefl _)
  · exact absurd (utf8_lt_of_lt hgt) (List.lt_asymm h)

end ScriptBuild.Text
