/-!
# Byte offsets into a text

Places in a configuration file are byte offsets into its UTF-8 form. The functions here count
and cut a list of characters in bytes; a cut that would split a character or run past the end
does not exist.

## Main definitions

* `byteLength`: the number of bytes of a text
* `dropBytes?`, `takeBytes?`: the text after, or before, a byte offset
* `slice?`: the text between two byte offsets
-/

namespace HttpdConf.Text

/-- The number of bytes of the UTF-8 form. -/
def byteLength : List Char → Nat
  | [] => 0
  | c :: cs => c.utf8Size + byteLength cs

/-- What follows the first `n` bytes. -/
def dropBytes? : Nat → List Char → Option (List Char)
  | 0, cs => some cs
  | _ + 1, [] => none
  | n + 1, c :: cs =>
    if c.utf8Size ≤ n + 1 then dropBytes? (n + 1 - c.utf8Size) cs else none

/-- The first `n` bytes. -/
def takeBytes? : Nat → List Char → Option (List Char)
  | 0, _ => some []
  | _ + 1, [] => none
  | n + 1, c :: cs =>
    if c.utf8Size ≤ n + 1 then (takeBytes? (n + 1 - c.utf8Size) cs).map (c :: ·) else none

/-- The bytes from `start` up to `stop`, if both are character boundaries in this order. -/
def slice? (cs : List Char) (start stop : Nat) : Option (List Char) :=
  if start ≤ stop then (dropBytes? start cs).bind (takeBytes? (stop - start)) else none

@[simp]
theorem byteLength_nil : byteLength [] = 0 := rfl

@[simp]
theorem byteLength_cons (c : Char) (cs : List Char) :
    byteLength (c :: cs) = c.utf8Size + byteLength cs := rfl

@[simp]
theorem byteLength_append (as bs : List Char) :
    byteLength (as ++ bs) = byteLength as + byteLength bs := by
  induction as with
  | nil => simp
  | cons a as ih => simp [ih, Nat.add_assoc]

/-- A character within the first bytes is dropped whole. -/
theorem dropBytes?_cons (c : Char) (cs : List Char) (n : Nat) :
    dropBytes? (c.utf8Size + n) (c :: cs) = dropBytes? n cs := by
  obtain ⟨m, hm⟩ := Nat.exists_eq_add_one.mpr (Nat.add_pos_left c.utf8Size_pos n)
  have hle : c.utf8Size ≤ m + 1 := by omega
  have hsub : m + 1 - c.utf8Size = n := by omega
  simp [hm, dropBytes?, hle, hsub]

/-- A character within the first bytes is taken whole. -/
theorem takeBytes?_cons (c : Char) (cs : List Char) (n : Nat) :
    takeBytes? (c.utf8Size + n) (c :: cs) = (takeBytes? n cs).map (c :: ·) := by
  obtain ⟨m, hm⟩ := Nat.exists_eq_add_one.mpr (Nat.add_pos_left c.utf8Size_pos n)
  have hle : c.utf8Size ≤ m + 1 := by omega
  have hsub : m + 1 - c.utf8Size = n := by omega
  simp [hm, takeBytes?, hle, hsub]

/-- Dropping the bytes of a leading part leaves the rest. -/
@[simp]
theorem dropBytes?_append (as bs : List Char) :
    dropBytes? (byteLength as) (as ++ bs) = some bs := by
  induction as with
  | nil => simp [dropBytes?]
  | cons a as ih => simp [dropBytes?_cons, ih]

/-- Taking the bytes of a leading part gives that part. -/
@[simp]
theorem takeBytes?_append (as bs : List Char) :
    takeBytes? (byteLength as) (as ++ bs) = some as := by
  induction as with
  | nil => simp [takeBytes?]
  | cons a as ih => simp [takeBytes?_cons, ih]

/-- What follows the first bytes is a rest with just these bytes before it. -/
theorem dropBytes?_eq_some_iff {n : Nat} {cs rest : List Char} :
    dropBytes? n cs = some rest ↔ ∃ taken, cs = taken ++ rest ∧ byteLength taken = n := by
  constructor
  · intro h
    fun_induction dropBytes? n cs with
    | case1 cs => exact ⟨[], by simp_all, rfl⟩
    | case2 => simp at h
    | case3 n c cs hle ih =>
      obtain ⟨taken, rfl, hlen⟩ := ih h
      exact ⟨c :: taken, rfl, by simp only [byteLength_cons, hlen]; omega⟩
    | case4 => simp at h
  · rintro ⟨taken, rfl, rfl⟩
    simp

/-- The first bytes are a leading part with just these bytes. -/
theorem takeBytes?_eq_some_iff {n : Nat} {cs taken : List Char} :
    takeBytes? n cs = some taken ↔ ∃ rest, cs = taken ++ rest ∧ byteLength taken = n := by
  constructor
  · intro h
    fun_induction takeBytes? n cs generalizing taken with
    | case1 cs => obtain rfl := Option.some.inj h; exact ⟨cs, rfl, rfl⟩
    | case2 => simp at h
    | case3 n c cs hle ih =>
      obtain ⟨more, hmore, rfl⟩ := Option.map_eq_some_iff.1 h
      obtain ⟨rest, rfl, hlen⟩ := ih hmore
      exact ⟨rest, rfl, by simp only [byteLength_cons, hlen]; omega⟩
    | case4 => simp at h
  · rintro ⟨rest, rfl, rfl⟩
    simp

/-- A slice is what stands between two cuts. -/
theorem slice?_eq_some_iff {cs mid : List Char} {start stop : Nat} :
    slice? cs start stop = some mid ↔
      ∃ before after, cs = before ++ (mid ++ after) ∧ byteLength before = start ∧
        byteLength before + byteLength mid = stop := by
  constructor
  · intro h
    unfold slice? at h
    split at h
    · rename_i hle
      obtain ⟨rest, hrest, hmid⟩ := Option.bind_eq_some_iff.1 h
      obtain ⟨before, rfl, hbefore⟩ := dropBytes?_eq_some_iff.1 hrest
      obtain ⟨after, rfl, hlen⟩ := takeBytes?_eq_some_iff.1 hmid
      exact ⟨before, after, rfl, hbefore, by omega⟩
    · simp at h
  · rintro ⟨before, after, rfl, rfl, rfl⟩
    simp [slice?]

/-- The slice between two cuts is what stands between them. -/
theorem slice?_append (as bs cs : List Char) :
    slice? (as ++ (bs ++ cs)) (byteLength as) (byteLength as + byteLength bs) = some bs := by
  simp [slice?]

end HttpdConf.Text
