import HttpdConf.Text.Slice

/-!
# White space and the case of letters

Two classes of characters matter when configuration text is read. Comment texts and diagnostics go
by white space, the 25 code points with the Unicode property `White_Space`; the scanner does not,
as it separates words at spaces, tabs and form feeds only. Names of directives, blocks and
conditional blocks are compared ignoring the case of ASCII letters; every other character stands
for itself.

## Main definitions

* `isBlank`: white space
* `trim`, `trimEnd`: a text without its outer blanks
* `words`: the maximal runs of non-blank characters
* `sameName`: whether names agree up to the case of ASCII letters

## Main results

* `sameName_iff`: it is enough to compare the names in small letters
-/

namespace HttpdConf.Text

/-! ## White space -/

/-- The Unicode property `White_Space`. -/
def isBlank (c : Char) : Bool :=
  let n := c.toNat
  (0x09 ≤ n && n ≤ 0x0D) || n == 0x20 || n == 0x85 || n == 0xA0 || n == 0x1680 ||
    (0x2000 ≤ n && n ≤ 0x200A) || n == 0x2028 || n == 0x2029 || n == 0x202F || n == 0x205F ||
    n == 0x3000

/-- Drop the blanks at the end. -/
def trimEnd (cs : List Char) : List Char :=
  (cs.reverse.dropWhile isBlank).reverse

/-- Drop the blanks at both ends. -/
def trim (cs : List Char) : List Char :=
  trimEnd (cs.dropWhile isBlank)

/-- The maximal runs of non-blank characters, from left to right. -/
def words : List Char → List (List Char)
  | [] => []
  | [c] => if isBlank c then [] else [[c]]
  | c :: d :: cs =>
    if isBlank c then words (d :: cs)
    else if isBlank d then [c] :: words (d :: cs)
    else
      match words (d :: cs) with
      | [] => [[c]]
      | w :: ws => (c :: w) :: ws

/-- A blank in front of a text changes none of its words. -/
theorem words_cons_of_isBlank {c : Char} (cs : List Char) (h : isBlank c = true) :
    words (c :: cs) = words cs := by
  cases cs <;> simp [words, h]

/-! ## Small and capital letters -/

/-- The text with its ASCII capital letters made small. -/
def folded (s : String) : List Char :=
  s.toList.map Char.toLower

/-- Whether two names agree up to the case of ASCII letters. Names of different size are told apart
without reading them. -/
def sameName (a b : String) : Bool :=
  a.utf8ByteSize == b.utf8ByteSize && folded a == folded b

/-- A small letter takes as many bytes as its capital. -/
theorem utf8Size_toLower (c : Char) : c.toLower.utf8Size = c.utf8Size := by
  unfold Char.toLower
  split
  · rename_i h
    have hupper : c.val.toNat ≤ 90 := UInt32.le_iff_toNat_le.1 h.2
    have hlower : (c.val + ('a'.val - 'A'.val)).toNat = c.val.toNat + 32 := by
      rw [UInt32.toNat_add]
      exact Nat.mod_eq_of_lt (show c.val.toNat + 32 < 4294967296 by omega)
    have hsmall : c.val ≤ 127 :=
      UInt32.le_iff_toNat_le.2 (show c.val.toNat ≤ 127 by omega)
    have hsmall' : c.val + ('a'.val - 'A'.val) ≤ 127 :=
      UInt32.le_iff_toNat_le.2 (show (c.val + ('a'.val - 'A'.val)).toNat ≤ 127 by omega)
    exact (if_pos hsmall').trans (if_pos hsmall).symm
  · rfl

theorem byteLength_folded (s : String) : byteLength (folded s) = s.utf8ByteSize := by
  rw [folded, ← byteLength_toList]
  induction s.toList with
  | nil => rfl
  | cons c cs ih => simp [utf8Size_toLower, ih]

theorem sameName_iff {a b : String} : sameName a b = true ↔ folded a = folded b := by
  constructor
  · intro h
    simp only [sameName, Bool.and_eq_true, beq_iff_eq] at h
    exact h.2
  · intro h
    have hsize := congrArg byteLength h
    rw [byteLength_folded, byteLength_folded] at hsize
    simp [sameName, hsize, h]

@[simp]
theorem sameName_refl (a : String) : sameName a a = true := sameName_iff.2 rfl

end HttpdConf.Text
