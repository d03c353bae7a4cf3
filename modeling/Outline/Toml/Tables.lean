/-
# TOML tables

A table is defined once, by a header or by the dotted keys of another table; what
a header only passes through is implied, and may still be defined.

| what is there | header `[k]` | header `[[k]]` | plain key `k` | dotted key `k.x` |
| --- | --- | --- | --- | --- |
| nothing | defines | starts a list | sets | makes a dotted table |
| an implied table | defines | fails | fails | passes through, but ends in a dotted one |
| a dotted table | fails | fails | fails | goes on |
| a defined table | fails | fails | fails | fails |
| a list of tables | fails | adds one | fails | passes through, but ends in a dotted one |
| a value | fails | fails | fails | fails |

Headers pass through every table, and through the last one of a list.
-/

import Outline.Json.Basic

namespace Outline
namespace Toml

/-- How a table came to be. -/
inductive Origin
  | implied | dotted | defined
  deriving DecidableEq, Repr

/-- What a key stands for. -/
inductive Node
  | value (v : Json)
  | table (origin : Origin) (fields : List (String × Node))
  /-- Tables of one name; the last of them is still open. -/
  | tables (closed : List Json) (fields : List (String × Node))
  deriving Repr

/-- The fields of a table, in the order in which their keys were first named. -/
abbrev Fields := List (String × Node)

mutual

/-- What a key stands for, as a value. -/
def Node.json : Node → Json
  | .value v => v
  | .table _ fs => .object (fieldsJson fs)
  | .tables closed fs => .array (closed ++ [.object (fieldsJson fs)])

/-- The values of fields. -/
def fieldsJson : List (String × Node) → List (String × Json)
  | [] => []
  | (k, n) :: fs => (k, n.json) :: fieldsJson fs

end

namespace Fields

/-- The fields with another node for a key that they have. -/
def replace (fs : Fields) (k : String) (n : Node) : Fields :=
  fs.map fun f => if f.1 = k then (k, n) else f

/-- How tables are changed. -/
abbrev Change := Origin → Fields → Option Fields

/-- Changes the table that a path of keys leads to, making the tables on the way
that are missing; `via` says how those come to be. -/
def under (via : Origin) (change : Change) (origin : Origin) (fs : Fields) :
    List String → Option Fields
  | [] => change origin fs
  | k :: ks => match fs.lookup k with
    | none => (under via change via [] ks).map fun inner => fs ++ [(k, .table via inner)]
    | some (.value _) => none
    | some (.table o inner) =>
      if via = .dotted ∧ o = .defined then none
      else (under via change o inner ks).map fun inner => fs.replace k (.table o inner)
    | some (.tables closed inner) =>
      (under via change .defined inner ks).map fun inner => fs.replace k (.tables closed inner)

/-- Defines a table by a header. -/
def define (k : String) : Change := fun _ fs =>
  match fs.lookup k with
  | none => some (fs ++ [(k, .table .defined [])])
  | some (.table .implied inner) => some (fs.replace k (.table .defined inner))
  | _ => none

/-- Adds a table to a list of them by a header. -/
def append (k : String) : Change := fun _ fs =>
  match fs.lookup k with
  | none => some (fs ++ [(k, .tables [] [])])
  | some (.tables closed inner) =>
    some (fs.replace k (.tables (closed ++ [.object (fieldsJson inner)]) []))
  | _ => none

/-- Gives a key a value. -/
def set (k : String) (v : Json) : Change := fun _ fs =>
  match fs.lookup k with
  | none => some (fs ++ [(k, .value v)])
  | some _ => none

/-- Gives a key, which may be dotted, a value. -/
def assign (path : List String) (k : String) (v : Json) : Change := fun origin fs =>
  match path with
  | [] => set k v origin fs
  | path =>
    let onlyDotted : Change := fun o fs => if o = .dotted then set k v o fs else none
    under .dotted onlyDotted origin fs path

end Fields
end Toml
end Outline
