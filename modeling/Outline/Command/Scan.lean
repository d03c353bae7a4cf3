/-
# Scanning a command line

What the arguments of a command are: options, with their values, and words.

| argument | meaning |
| --- | --- |
| `--name` | an option, whose value follows if it takes one |
| `--name=value` | an option with its value |
| `-abc` | options of one letter; the first that takes a value takes the rest |
| `-a=value` | an option of one letter with its value |
| `--` | words only from here on |
| `-` and all else | a word or the value of the option before |

An argument that looks like an option is never the value of the option before it.
-/

namespace Outline
namespace Command

/-- How often an option may be given, and whether it takes a value. -/
inductive Takes
  | nothing | tally | one | many
  deriving DecidableEq, Repr

/-- Whether an option takes a value. -/
def Takes.isValued : Takes → Bool
  | one | many => true
  | nothing | tally => false

/-- What the value of an option has to be. -/
inductive ValueKind
  | text
  /-- A path, which may not be empty. -/
  | path
  /-- A name and a type with a colon between them. -/
  | member
  deriving DecidableEq, Repr

/-- An option. -/
structure Flag where
  name : String
  letter : Option Char := none
  takes : Takes := .nothing
  value : ValueKind := .text
  deriving DecidableEq, Repr

/-- What stands on a command line. -/
inductive Item
  | flag (f : Flag)
  | valued (f : Flag) (value : String)
  | word (s : String)
  /-- Something that cannot stand here. -/
  | bad
  deriving DecidableEq, Repr

/-- Whether an argument looks like an option. -/
def isOption (s : String) : Bool :=
  match s.toList with
  | '-' :: _ :: _ => true
  | _ => false

/-- The value of an option that no value is attached to, and the arguments after
it. -/
def valueAfter (f : Flag) : List String → List Item × List String
  | [] => ([.bad], [])
  | v :: args => if isOption v then ([.bad], []) else ([.valued f v], args)

theorem valueAfter_length_le (f : Flag) (args : List String) :
    (valueAfter f args).2.length ≤ args.length := by
  cases args with
  | nil => simp [valueAfter]
  | cons v args =>
    rw [valueAfter]
    split <;> simp

/-- The item of an option that was looked for by its name; a value may be attached
to it. -/
def namedItem (args : List String) : Option Flag → Option String → List Item × List String
  | none, _ => ([.bad], [])
  | some f, none => if f.takes.isValued then valueAfter f args else ([.flag f], args)
  | some f, some v => if f.takes.isValued then ([.valued f v], args) else ([.bad], [])

theorem namedItem_length_le (args : List String) (f : Option Flag) (v : Option String) :
    (namedItem args f v).2.length ≤ args.length := by
  unfold namedItem
  split
  · simp
  · split
    · exact valueAfter_length_le _ args
    · simp
  · split <;> simp

/-- The value that is attached to a name by an equals sign. -/
def attached (body : List Char) : Option String :=
  match body.dropWhile (· ≠ '=') with
  | [] => none
  | _ :: v => some (String.ofList v)

/-- The item of an option with its full name. -/
def longItem (flags : List Flag) (body : List Char) (args : List String) :
    List Item × List String :=
  let name := String.ofList (body.takeWhile (· ≠ '='))
  namedItem args (flags.find? (·.name = name)) (attached body)

/-- The items of options of one letter. -/
def letterItems (flags : List Flag) (args : List String) : List Char → List Item × List String
  | [] => ([], args)
  | c :: rest => match flags.find? (·.letter = some c) with
    | none => ([.bad], [])
    | some f =>
      if f.takes.isValued then match rest with
        | [] => valueAfter f args
        | '=' :: v => ([.valued f (String.ofList v)], args)
        | v => ([.valued f (String.ofList v)], args)
      else
        let (items, after) := letterItems flags args rest
        (.flag f :: items, after)

theorem letterItems_length_le (flags : List Flag) (args : List String) (cs : List Char) :
    (letterItems flags args cs).2.length ≤ args.length := by
  induction cs with
  | nil => simp [letterItems]
  | cons c cs ih =>
    rw [letterItems]
    split
    · simp
    · split
      · split
        · exact valueAfter_length_le _ args
        · simp
        · simp
      · exact ih

/-- The items that the first of some arguments gives, and the arguments after
them. -/
def nextItems (flags : List Flag) (arg : String) (args : List String) :
    List Item × List String :=
  match arg.toList with
  | ['-', '-'] => (args.map .word, [])
  | '-' :: '-' :: body => longItem flags body args
  | '-' :: c :: cs => letterItems flags args (c :: cs)
  | _ => ([.word arg], args)

theorem nextItems_length_le (flags : List Flag) (arg : String) (args : List String) :
    (nextItems flags arg args).2.length ≤ args.length := by
  unfold nextItems
  split
  · simp
  · exact namedItem_length_le args _ _
  · exact letterItems_length_le flags args _
  · simp

/-- The items that arguments give. -/
def scan (flags : List Flag) (args : List String) : List Item :=
  match args with
  | [] => []
  | arg :: args =>
    (nextItems flags arg args).1 ++ scan flags (nextItems flags arg args).2
termination_by args.length
decreasing_by exact Nat.lt_succ_of_le (nextItems_length_le flags arg args)

end Command
end Outline
