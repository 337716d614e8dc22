import HttpdConf.Policy

/-!
# Settings

What a settings file says, independent of its format, and the policy it stands for. A record may
also be written as a list of its fields in their fixed order, where fields missing at the end
take their defaults. Fields that no record has are ignored, whatever they hold.

## Main definitions

* `readHex?`, `scalar?`: code points written in hexadecimal
* `Setting`: a value of a settings file
* `Setting.policy?`: the policy of a whole file
-/

namespace HttpdConf

/-! ## Escapes -/

/-- The value of a hexadecimal digit. -/
def hexDigit? (c : Char) : Option Nat :=
  let n := c.toNat
  if '0'.toNat ≤ n && n ≤ '9'.toNat then some (n - '0'.toNat)
  else if 'a'.toNat ≤ n && n ≤ 'f'.toNat then some (n - 'a'.toNat + 10)
  else if 'A'.toNat ≤ n && n ≤ 'F'.toNat then some (n - 'A'.toNat + 10)
  else none

/-- The number written by the first `count` characters, all of them hexadecimal digits, and what
follows. -/
def readHex? (count : Nat) (cs : List Char) : Option (Nat × List Char) :=
  let digits := (cs.take count).filterMap hexDigit?
  if digits.length = count then some (digits.foldl (fun n d => 16 * n + d) 0, cs.drop count)
  else none

/-- The character of a code point; surrogates and numbers past the last plane have none. -/
def scalar? (n : Nat) : Option Char :=
  if h : n.isValidChar then some (Char.ofNatAux n h) else none

/-! ## Values -/

/-- A value of a settings file. A text or field name may be missing, when it was written with
escapes that stand for no character. -/
inductive Setting where
  | text (s : Option String)
  | list (items : List Setting)
  | record (fields : List (Option String × Setting))
  /-- numbers, truth values and the like, which no known field takes -/
  | atom

namespace Setting

/-- A list of texts. -/
def texts? : Setting → Option (List String)
  | .list items => items.mapM fun
    | .text s => s
    | _ => none
  | _ => none

/-- The values of the field called `name`. -/
def valuesOf (name : String) (fields : List (Option String × Setting)) : List Setting :=
  fields.filterMap fun (key, value) => if key == some name then some value else none

/-- Read a field that may be missing; it may not be given twice. -/
def field? {α : Type} (default : α) (read : Setting → Option α) : List Setting → Option α
  | [] => some default
  | [value] => read value
  | _ => none

/-- The values under the field names of a record, or at their places in a list. With `exact`, a
list may not go on after the last field. -/
def fieldValues? (exact : Bool) (names : List String) : Setting → Option (List (List Setting))
  | .record fields =>
    if fields.all (·.1.isSome) then some (names.map (valuesOf · fields)) else none
  | .list items =>
    if exact && names.length < items.length then none
    else some ((List.range names.length).map fun i => items[i]?.toList)
  | _ => none

/-- The policy a record stands for. -/
def activation? (exact : Bool) (s : Setting) : Option Policy := do
  match ← s.fieldValues? exact ["conditional_blocks", "loaded_modules", "defines"] with
  | [blocks, modules, defines] =>
    return {
      conditionalBlocks := ← field? Policy.default.conditionalBlocks texts? blocks
      loadedModules := textSet (← field? [] texts? modules)
      defines := textSet (← field? [] texts? defines) }
  | _ => none

/-- The policy of a whole settings file. -/
def policy? (exact : Bool) (s : Setting) : Option Policy := do
  match ← s.fieldValues? exact ["activation"] with
  | [values] => field? Policy.default (activation? exact) values
  | _ => none

end Setting

end HttpdConf
