import HttpdConf.Text.Bytes

/-!
# Slices of a text

Cutting a string at two byte offsets takes time only for the bytes that are cut out. A place
between the bytes of one character is no place to cut.

## Main definitions

* `slice`: the text between two byte offsets

## Main results

* `slice_eq`: slices of a string are slices of its characters
-/

namespace HttpdConf.Text

/-- The text between two byte offsets; empty unless both are character boundaries in this order. -/
def slice (s : String) (start stop : Nat) : String :=
  if String.Pos.Raw.isValid s ⟨start⟩ && String.Pos.Raw.isValid s ⟨stop⟩ then
    String.Pos.Raw.extract s ⟨start⟩ ⟨stop⟩
  else ""

/-- The size of a text is the number of bytes of its characters. -/
theorem utf8ByteSize_ofList (cs : List Char) : (String.ofList cs).utf8ByteSize = byteLength cs := by
  induction cs with
  | nil => rfl
  | cons c cs ih =>
    rw [← List.singleton_append, String.ofList_append, String.utf8ByteSize_append, ih]
    simp

theorem byteLength_toList (s : String) : byteLength s.toList = s.utf8ByteSize := by
  rw [← utf8ByteSize_ofList, String.ofList_toList]

/-- An offset is a character boundary when whole characters stand before it. -/
theorem isValid_iff (s : String) (n : Nat) :
    String.Pos.Raw.isValid s ⟨n⟩ = true ↔
      ∃ before after, s.toList = before ++ after ∧ byteLength before = n := by
  rw [String.Pos.Raw.isValid_eq_true_iff, String.Pos.Raw.isValid_iff_exists_append]
  constructor
  · rintro ⟨before, after, rfl, hn⟩
    refine ⟨before.toList, after.toList, by simp, ?_⟩
    rw [byteLength_toList, ← String.byteIdx_rawEndPos, ← hn]
  · rintro ⟨before, after, hs, hn⟩
    refine ⟨String.ofList before, String.ofList after, ?_, ?_⟩
    · rw [← String.ofList_append, ← hs, String.ofList_toList]
    · rw [String.Pos.Raw.ext_iff, String.byteIdx_rawEndPos, utf8ByteSize_ofList, hn]

/-! ## Cutting out a part -/

theorem mk_ne_mk_add {c : Char} (i n : Nat) :
    (⟨i⟩ : String.Pos.Raw) ≠ ⟨i + (c.utf8Size + n)⟩ := by
  intro h
  have hpos := c.utf8Size_pos
  have hi := congrArg String.Pos.Raw.byteIdx h
  simp only at hi
  omega

/-- Taking characters ends where the part ends. -/
theorem go₂_self (bs : List Char) (i : String.Pos.Raw) :
    String.Pos.Raw.extract.go₂ bs i i = [] := by
  cases bs with
  | nil => rfl
  | cons b bs => exact if_pos rfl

/-- Skipping characters ends where the part starts. -/
theorem go₁_self (bs : List Char) (i stop : String.Pos.Raw) :
    String.Pos.Raw.extract.go₁ bs i i stop = String.Pos.Raw.extract.go₂ bs i stop := by
  cases bs with
  | nil => rfl
  | cons b bs => exact if_pos rfl

/-- Reading on up to the end of a part gives that part. -/
theorem go₂_append (as bs : List Char) (i : Nat) :
    String.Pos.Raw.extract.go₂ (as ++ bs) ⟨i⟩ ⟨i + byteLength as⟩ = as := by
  induction as generalizing i with
  | nil => exact go₂_self bs ⟨i⟩
  | cons a as ih =>
    rw [byteLength_cons]
    refine (if_neg (mk_ne_mk_add i _)).trans ?_
    rw [← Nat.add_assoc]
    exact congrArg (a :: ·) (ih (i + a.utf8Size))

/-- Skipping a leading part leads to what follows it. -/
theorem go₁_append (as bs : List Char) (i : Nat) (stop : String.Pos.Raw) :
    String.Pos.Raw.extract.go₁ (as ++ bs) ⟨i⟩ ⟨i + byteLength as⟩ stop =
      String.Pos.Raw.extract.go₂ bs ⟨i + byteLength as⟩ stop := by
  induction as generalizing i with
  | nil => exact go₁_self bs ⟨i⟩ stop
  | cons a as ih =>
    rw [byteLength_cons]
    refine (if_neg (mk_ne_mk_add i _)).trans ?_
    rw [← Nat.add_assoc]
    exact ih (i + a.utf8Size)

/-- Nothing stands between two offsets in the wrong order. -/
theorem extract_of_le (s : String) {start stop : Nat} (h : stop ≤ start) :
    String.Pos.Raw.extract s ⟨start⟩ ⟨stop⟩ = "" := if_pos h

theorem extract_append (as bs cs : List Char) :
    String.Pos.Raw.extract (String.ofList (as ++ (bs ++ cs))) ⟨byteLength as⟩
      ⟨byteLength as + byteLength bs⟩ = String.ofList bs := by
  have hskip := go₁_append as (bs ++ cs) 0 ⟨byteLength as + byteLength bs⟩
  have htake := go₂_append bs cs (byteLength as)
  rw [Nat.zero_add] at hskip
  cases bs with
  | nil => exact extract_of_le _ (Nat.le_refl _)
  | cons b bs =>
    have hpos := b.utf8Size_pos
    have hlt : ¬ byteLength as ≥ byteLength as + byteLength (b :: bs) := by
      simp only [byteLength_cons]
      omega
    refine (if_neg hlt).trans ?_
    rw [String.toList_ofList]
    exact congrArg String.ofList (hskip.trans htake)

/-- Slices of a string are slices of its characters. -/
theorem slice_eq (s : String) (start stop : Nat) :
    slice s start stop = String.ofList ((slice? s.toList start stop).getD []) := by
  cases hmid : slice? s.toList start stop with
  | some mid =>
    obtain ⟨before, after, hs, rfl, rfl⟩ := slice?_eq_some_iff.1 hmid
    have hstart := (isValid_iff s (byteLength before)).2 ⟨before, mid ++ after, hs, rfl⟩
    have hstop := (isValid_iff s (byteLength before + byteLength mid)).2
      ⟨before ++ mid, after, by simp [hs], by simp⟩
    have hcut := extract_append before mid after
    rw [← hs, String.ofList_toList] at hcut
    simp [slice, hstart, hstop, hcut]
  | none =>
    unfold slice
    split
    · rename_i hvalid
      simp only [Bool.and_eq_true] at hvalid
      obtain ⟨before, after, hs, rfl⟩ := (isValid_iff s start).1 hvalid.1
      obtain ⟨upto, rest, hs', rfl⟩ := (isValid_iff s stop).1 hvalid.2
      rcases List.append_eq_append_iff.1 (hs.symm.trans hs') with ⟨mid, rfl, rfl⟩ | ⟨mid, rfl, _⟩
      · have hsome : slice? s.toList (byteLength before) (byteLength (before ++ mid)) = some mid :=
          slice?_eq_some_iff.2 ⟨before, rest, by simp [hs], rfl, by simp⟩
        rw [hsome] at hmid
        simp at hmid
      · exact extract_of_le s (by simp)
    · rfl

end HttpdConf.Text
