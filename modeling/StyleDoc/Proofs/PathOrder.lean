import StyleDoc.Files.Find
import StyleDoc.Proofs.Tiling

/-!
# The order of paths

Texts are compared by code points and paths by their names.  UTF-8 keeps that order, so that paths
are in the order of the bytes of their names.
-/

namespace StyleDoc

/-! ## Texts -/

namespace Text

/-- Numbers compare like their digits to the base 64. -/
theorem digits_lt {v w : Nat} (less : v < w) :
    v / 262144 < w / 262144 ∨ v / 262144 = w / 262144 ∧
      (v / 4096 % 64 < w / 4096 % 64 ∨ v / 4096 % 64 = w / 4096 % 64 ∧
        (v / 64 % 64 < w / 64 % 64 ∨ v / 64 % 64 = w / 64 % 64 ∧ v % 64 < w % 64)) := by
  omega

/-- UTF-8 keeps the order of characters, whatever follows them. -/
theorem utf8EncodeChar_append_lt {c d : Char} (less : c.toNat < d.toNat) (a b : List UInt8) :
    String.utf8EncodeChar c ++ a < String.utf8EncodeChar d ++ b := by
  have values : c.val.toNat < d.val.toNat := less
  have bound : d.val.toNat < 1114112 := by
    have := d.valid
    simp only [UInt32.isValidChar, Nat.isValidChar] at this
    omega
  have digits := digits_lt values
  simp only [String.utf8EncodeChar]
  generalize c.val.toNat = v at *
  generalize d.val.toNat = w at *
  clear less
  repeat' split
  all_goals
    simp only [List.cons_append, List.nil_append, List.cons_lt_cons_iff, UInt8.lt_iff_toNat_lt,
      ← UInt8.toNat_inj, UInt8.toNat_ofNat']
    simp (disch := omega) only [Nat.mod_eq_of_lt]
    omega

theorem bytes_lt_of_isAtMost {a b : List Char} (ordered : isAtMost a b = true) (differ : a ≠ b) :
    bytes a < bytes b := by
  fun_induction isAtMost a b with
  | case1 b =>
      obtain ⟨c, rest, rfl⟩ := List.exists_cons_of_ne_nil differ.symm
      have nonempty : bytes (c :: rest) ≠ [] := by
        simp [bytes]
      obtain ⟨byte, others, form⟩ := List.exists_cons_of_ne_nil nonempty
      rw [form]
      exact List.nil_lt_cons byte others
  | case2 => cases ordered
  | case3 text c other ih =>
      have rests : bytes text < bytes other := ih ordered (by simpa using differ)
      simpa [bytes] using List.append_left_lt rests
  | case4 c text d other distinct =>
      have less : c.toNat < d.toNat := by simpa using ordered
      simpa [bytes] using utf8EncodeChar_append_lt less (bytes text) (bytes other)

theorem isAtMost_total (a b : List Char) : isAtMost a b = true ∨ isAtMost b a = true := by
  fun_induction isAtMost a b with
  | case1 => exact .inl rfl
  | case2 => exact .inr rfl
  | case3 text c other ih => simpa [isAtMost] using ih
  | case4 c text d other distinct =>
      have differ : c.toNat ≠ d.toNat := fun same => distinct (Char.toNat_inj.mp same)
      simp only [isAtMost, if_neg (Ne.symm distinct), decide_eq_true_eq]
      omega

end Text

/-! ## Paths -/

namespace RelativePath

def bytes (path : RelativePath) : List (List UInt8) := path.map fun name => Text.bytes name.toList

theorem bytes_lt_of_isAtMost {a b : RelativePath} (ordered : a.isAtMost b = true)
    (differ : a ≠ b) : a.bytes < b.bytes := by
  fun_induction isAtMost a b with
  | case1 b =>
      obtain ⟨name, rest, rfl⟩ := List.exists_cons_of_ne_nil differ.symm
      exact List.nil_lt_cons _ _
  | case2 => cases ordered
  | case3 path name others ih =>
      have rests : bytes path < bytes others := ih ordered (by simpa using differ)
      exact List.cons_lt_cons_iff.mpr (.inr ⟨rfl, rests⟩)
  | case4 name path other others distinct =>
      have texts : name.toList ≠ other.toList := fun same => distinct (String.toList_inj.mp same)
      exact List.cons_lt_cons_iff.mpr (.inl (Text.bytes_lt_of_isAtMost ordered texts))

theorem isAtMost_total (a b : RelativePath) : (a.isAtMost b || b.isAtMost a) = true := by
  rw [Bool.or_eq_true]
  fun_induction isAtMost a b with
  | case1 => exact .inl rfl
  | case2 => exact .inr rfl
  | case3 path name others ih => simpa [isAtMost] using ih
  | case4 name path other others distinct =>
      simpa [isAtMost, Ne.symm distinct] using Text.isAtMost_total name.toList other.toList

/-- Paths are in order when their names are, compared byte by byte. -/
theorem isAtMost_iff {a b : RelativePath} : a.isAtMost b = true ↔ a = b ∨ a.bytes < b.bytes := by
  constructor
  · intro ordered
    by_cases same : a = b
    · exact .inl same
    · exact .inr (bytes_lt_of_isAtMost ordered same)
  · rintro (rfl | less)
    · simpa using isAtMost_total a a
    · by_contra unordered
      have reversed : b.isAtMost a = true := by
        simpa [unordered] using isAtMost_total a b
      have differ : b ≠ a := by
        rintro rfl
        exact List.lt_irrefl _ less
      exact List.lt_asymm less (bytes_lt_of_isAtMost reversed differ)

theorem isAtMost_trans (a b c : RelativePath) (first : a.isAtMost b = true)
    (second : b.isAtMost c = true) : a.isAtMost c = true := by
  rw [isAtMost_iff] at *
  obtain rfl | first := first
  · exact second
  · obtain rfl | second := second
    · exact .inr first
    · exact .inr (List.lt_trans first second)

end RelativePath

end StyleDoc
