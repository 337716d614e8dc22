import HttpdConf.Settings

/-!
# Tables in TOML

A TOML document builds its tables line by line. Where a table came from decides what may still be
added to it: a table with a header of its own is closed to dotted keys and to a second header, a
table that only stood on the way to another one may still get its header.

## Main definitions

* `Item`, `Table`: what a document holds
* `Table.insert?`: a key with its value, under a dotted path
* `Table.open?`, `Table.openRow?`: the headers `[path]` and `[[path]]`
* `Table.modify?`: a change of the table under a path
-/

namespace HttpdConf.Toml

/-- Where a table came from. -/
inductive TableOrigin where
  /-- its own header -/
  | header
  /-- the path to another table's header -/
  | path
  /-- a dotted key -/
  | dotted
  deriving DecidableEq

/-- What stands under a key. -/
inductive Item where
  | text (s : String)
  /-- numbers and truth values -/
  | atom
  /-- dates and times -/
  | moment
  | array (items : List Item)
  /-- a table in braces, which is complete once it is closed -/
  | inline (fields : List (String × Item))
  | table (origin : TableOrigin) (fields : List (String × Item))
  /-- the tables under the headers `[[path]]` -/
  | rows (tables : List (List (String × Item)))

abbrev Table := List (String × Item)

namespace Table

/-- What stands under a key. -/
def get? (t : Table) (key : String) : Option Item := t.lookup key

/-- Set what stands under a key, in place if the key is there already. -/
def set (t : Table) (key : String) (item : Item) : Table :=
  match t with
  | [] => [(key, item)]
  | (k, i) :: rest => if k == key then (key, item) :: rest else (k, i) :: set rest key item

/-- Insert a value under a dotted key. Dotted keys may go on in tables that have no header of
their own, and end only in a table that dotted keys made. -/
def insert? (key : String) (value : Item) : List String → Table → Option Table
  | [], t =>
    match t.get? key with
    | none => some (t ++ [(key, value)])
    | some _ => none
  | step :: path, t =>
    match t.get? step with
    | none => (insert? key value path []).map fun inner => t ++ [(step, .table .dotted inner)]
    | some (.table origin inner) =>
      if origin = .header || (path.isEmpty && origin ≠ .dotted) then none
      else (insert? key value path inner).map fun inner => t.set step (.table origin inner)
    | some (.rows tables) =>
      match tables.getLast? with
      | some last =>
        if path.isEmpty then none
        else (insert? key value path last).map fun last =>
          t.set step (.rows (tables.dropLast ++ [last]))
      | none => none
    | some _ => none

/-- Change the table under a path of header keys; tables on the way are made as needed, and the
last of several rows is meant. -/
def modify? (change : Table → Option Table) : List String → Table → Option Table
  | [], t => change t
  | step :: path, t =>
    match t.get? step with
    | none => (modify? change path []).map fun inner => t ++ [(step, .table .path inner)]
    | some (.table origin inner) =>
      (modify? change path inner).map fun inner => t.set step (.table origin inner)
    | some (.rows tables) =>
      match tables.getLast? with
      | some last => (modify? change path last).map fun last =>
          t.set step (.rows (tables.dropLast ++ [last]))
      | none => none
    | some _ => none

/-- The effect of a header `[path.key]`. -/
def open? (path : List String) (key : String) (t : Table) : Option Table :=
  t |> modify? (fun parent =>
    match parent.get? key with
    | none => some (parent ++ [(key, .table .header [])])
    | some (.table .path fields) => some (parent.set key (.table .header fields))
    | some _ => none) path

/-- The effect of a header `[[path.key]]`. -/
def openRow? (path : List String) (key : String) (t : Table) : Option Table :=
  t |> modify? (fun parent =>
    match parent.get? key with
    | none => some (parent ++ [(key, .rows [[]])])
    | some (.rows tables) => some (parent.set key (.rows (tables ++ [[]])))
    | some _ => none) path

end Table

mutual
/-- What an item says as a setting. A date counts as a record that has no known field. -/
def Item.setting : Item → Setting
  | .text s => .text (some s)
  | .atom => .atom
  | .moment => .record []
  | .array items => .list (settings items)
  | .inline fields => .record (settingFields fields)
  | .table _ fields => .record (settingFields fields)
  | .rows tables => .list (settingRows tables)

def settings : List Item → List Setting
  | [] => []
  | item :: rest => item.setting :: settings rest

def settingFields : List (String × Item) → List (Option String × Setting)
  | [] => []
  | (key, item) :: rest => (some key, item.setting) :: settingFields rest

def settingRows : List (List (String × Item)) → List Setting
  | [] => []
  | fields :: rest => .record (settingFields fields) :: settingRows rest
end

end HttpdConf.Toml
