import LayeredConfig.Name
import Mathlib.Data.String.Basic
import Mathlib.Tactic.SplitIfs
/-!
# The order of names

Names compare character by character. That is the order of their bytes (`Name.bytes_lt_iff`): of two
characters, the one of the lower code point has the lower bytes, however many bytes each of them has.
-/

namespace LayeredConfig.Name

/-- The bytes of a name. -/
def bytes (name : String) : List UInt8 := name.toUTF8.data.toList

theorem bytes_eq_flatMap (name : String) : bytes name = name.toList.flatMap String.utf8EncodeChar := by
  obtain ⟨cs, rfl⟩ := name.exists_eq_ofList
  rw [bytes, String.toUTF8, String.toByteArray_ofList, List.utf8Encode, List.toList_data_toByteArray,
    String.toList_ofList]

/-! ## Bytes of a character -/

theorem ofNat_lt_iff {m n : Nat} : UInt8.ofNat m < UInt8.ofNat n ↔ m % 256 < n % 256 := by
  rw [UInt8.lt_iff_toNat_lt, UInt8.toNat_ofNat', UInt8.toNat_ofNat']

theorem ofNat_eq_iff {m n : Nat} : UInt8.ofNat m = UInt8.ofNat n ↔ m % 256 = n % 256 := by
  rw [← UInt8.toNat_inj, UInt8.toNat_ofNat', UInt8.toNat_ofNat']

section

variable {base mark : Nat} (hbase : 0 < base) (hfits : base + mark ≤ 256) (m n : Nat)

include hbase hfits

/-- A digit and the mark of its kind fit into a byte. -/
theorem digit_mod : (n % base + mark) % 256 = n % base + mark := by
  have hdigit := Nat.mod_lt n hbase
  exact Nat.mod_eq_of_lt (by omega)

/-- Bytes of one kind are ordered by their digits. -/
theorem digit_lt_iff :
    UInt8.ofNat (m % base + mark) < UInt8.ofNat (n % base + mark) ↔ m % base < n % base := by
  rw [ofNat_lt_iff, digit_mod hbase hfits, digit_mod hbase hfits, Nat.add_lt_add_iff_right]

theorem digit_eq_iff :
    UInt8.ofNat (m % base + mark) = UInt8.ofNat (n % base + mark) ↔ m % base = n % base := by
  rw [ofNat_eq_iff, digit_mod hbase hfits, digit_mod hbase hfits, Nat.add_right_cancel_iff]

end

/-- Numbers are ordered by their last digits where the digits before are the same. -/
theorem div_lt_or_mod_lt {m n : Nat} (h : m < n) :
    m / 64 < n / 64 ∨ m / 64 = n / 64 ∧ m % 64 < n % 64 := by omega

theorem toNat_lt (c : Char) : c.val.toNat < 0x110000 := by
  rcases c.valid with h | h
  · exact Nat.lt_trans h (by decide)
  · exact h.2

/-- The bytes of a lower character are lower, whatever follows. -/
theorem encode_append_lt {c d : Char} (h : c < d) (xs ys : List UInt8) :
    String.utf8EncodeChar c ++ xs < String.utf8EncodeChar d ++ ys := by
  have hlt : c.val.toNat < d.val.toNat := h
  have hd := toNat_lt d
  unfold String.utf8EncodeChar
  generalize c.val.toNat = m at hlt
  generalize d.val.toNat = n at hlt hd
  -- Four bytes have four digits, of which the first has no other in front of it.
  have hm : m / 262144 % 8 = m / 262144 := Nat.mod_eq_of_lt (by omega)
  have hn : n / 262144 % 8 = n / 262144 := Nat.mod_eq_of_lt (by omega)
  have hsecond := @div_lt_or_mod_lt (m / 4096) (n / 4096)
  have hthird := @div_lt_or_mod_lt (m / 64) (n / 64)
  have hlast := div_lt_or_mod_lt hlt
  rw [Nat.div_div_eq_div_mul, Nat.div_div_eq_div_mul] at hsecond hthird
  dsimp only
  -- Bytes of one kind compare by their digits, and bytes of two kinds by their marks.
  split_ifs <;>
    simp (disch := decide) only [List.cons_append, List.nil_append, List.cons_lt_cons_iff,
      ↓digit_lt_iff, ↓digit_eq_iff, ofNat_lt_iff] <;>
    omega

/-! ## Bytes of a name -/

theorem flatMap_encode_lt {cs ds : List Char} (h : cs < ds) :
    cs.flatMap String.utf8EncodeChar < ds.flatMap String.utf8EncodeChar := by
  induction cs generalizing ds with
  | nil =>
    cases ds with
    | nil => cases h
    | cons d ds =>
      rw [List.flatMap_nil, List.flatMap_cons]
      cases hd : String.utf8EncodeChar d with
      | nil => exact absurd hd String.utf8EncodeChar_ne_nil
      | cons b bs => exact List.nil_lt_cons b _
  | cons c cs ih =>
    cases ds with
    | nil => cases h
    | cons d ds =>
      rw [List.flatMap_cons, List.flatMap_cons]
      rcases List.cons_lt_cons_iff.mp h with hlt | ⟨rfl, hrest⟩
      · exact encode_append_lt hlt _ _
      · exact List.append_left_lt (ih hrest)

/-- Names are ordered as their bytes are. -/
theorem bytes_lt_iff {a b : String} : bytes a < bytes b ↔ a < b := by
  have hbytes : ∀ {a b : String}, a < b → bytes a < bytes b := by
    intro a b h
    rw [bytes_eq_flatMap, bytes_eq_flatMap]
    exact flatMap_encode_lt (String.lt_iff_toList_lt.mp h)
  refine ⟨fun h => ?_, hbytes⟩
  rcases lt_trichotomy a b with hab | rfl | hba
  · exact hab
  · exact absurd h (List.lt_irrefl _)
  · exact absurd h (List.lt_asymm (hbytes hba))

end LayeredConfig.Name
