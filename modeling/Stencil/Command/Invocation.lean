/-
The command line: options, their values, and what an invocation asks for.
-/

namespace Stencil
namespace Command

/-- What an invocation asks for. -/
structure Invocation where
  template : Option String := none
  context : Option String := none
  /-- Names bound to texts. -/
  bindings : List (String × String) := []
  /-- Names bound to the contents of files. -/
  files : List (String × String) := []
  maxRenderDepth : Option Nat := none
  unbuffered : Bool := false
  output : Option String := none
  verbose : Nat := 0
  quiet : Nat := 0
deriving DecidableEq, Repr, Inhabited

/-- Why there is nothing to render. -/
inductive Refusal where
  | help
  | version
  | misuse (reason : String)
deriving DecidableEq, Repr, Inhabited

/-- A part of the command line that takes values. -/
inductive Param where
  | template
  | context
  | binding
  | file
  | maxRenderDepth
  | output
deriving DecidableEq, Repr, Inhabited

/-- An option without a value. -/
inductive Flag where
  | unbuffered
  | verbose
  | quiet
  | help
  | version
deriving DecidableEq, Repr, Inhabited

inductive Opt where
  | param (p : Param)
  | flag (f : Flag)
deriving DecidableEq, Repr, Inhabited

/-- Options by their long names. -/
def longOptions : List (String × Opt) :=
  [("context", .param .context), ("args", .param .binding), ("rawfile", .param .file),
    ("max-render-depth", .param .maxRenderDepth), ("output", .param .output),
    ("unbuffered", .flag .unbuffered), ("verbose", .flag .verbose), ("quiet", .flag .quiet),
    ("help", .flag .help), ("version", .flag .version)]

/-- Options by their short names. -/
def shortOptions : List (Char × Opt) :=
  [('c', .param .context), ('o', .param .output), ('v', .flag .verbose), ('q', .flag .quiet),
    ('h', .flag .help), ('V', .flag .version)]

/-- How many values a parameter takes. -/
def Param.arity : Param → Nat
  | binding => 2
  | file => 2
  | _ => 1

/-- A path is not empty. -/
def pathOf (text : String) : Except Refusal String :=
  if text.isEmpty then .error (.misuse "a path must not be empty") else .ok text

/-- The digits of a whole number after an optional sign. -/
def digitsOf (text : List Char) : Bool × List Char :=
  match text with
  | '-' :: rest => (true, rest)
  | '+' :: rest => (false, rest)
  | rest => (false, rest)

/-- Depths have 32 bits. -/
def depthBound : Nat := Nat.pow 2 32

/-- The depth that a text writes. -/
def depthOf? (text : String) : Option Nat :=
  let (negative, digits) := digitsOf text.toList
  let n := digits.foldl (fun n c => 10 * n + (c.toNat - '0'.toNat)) 0
  if digits.isEmpty || !digits.all Char.isDigit then none
  else if n < depthBound && !(negative && n ≠ 0) then some n
  else none

/-- Sets what may be set once. -/
def once {α : Type} (old : Option α) (value : α) : Except Refusal (Option α) :=
  match old with
  | none => .ok (some value)
  | some _ => .error (.misuse "an option is given twice")

/-- Gives a parameter its values. -/
def Invocation.assign (inv : Invocation) (p : Param) (values : List String) :
    Except Refusal Invocation :=
  match p, values with
  | .template, [text] => do
      let path ← pathOf text
      return { inv with template := ← once inv.template path }
  | .context, [text] => do
      let path ← pathOf text
      return { inv with context := ← once inv.context path }
  | .output, [text] => do
      let path ← pathOf text
      return { inv with output := ← once inv.output path }
  | .maxRenderDepth, [text] =>
      match depthOf? text with
      | none => .error (.misuse ("not a depth: " ++ text))
      | some depth => do return { inv with maxRenderDepth := ← once inv.maxRenderDepth depth }
  | .binding, [name, value] => .ok { inv with bindings := inv.bindings ++ [(name, value)] }
  | .file, [name, path] => .ok { inv with files := inv.files ++ [(name, path)] }
  | _, _ => .error (.misuse "a wrong number of values")

/-- Sets a flag.  Some flags end the reading of the command line. -/
def Invocation.setFlag (inv : Invocation) : Flag → Except Refusal Invocation
  | .unbuffered =>
      if inv.unbuffered then .error (.misuse "an option is given twice")
      else .ok { inv with unbuffered := true }
  | .verbose => .ok { inv with verbose := inv.verbose + 1 }
  | .quiet => .ok { inv with quiet := inv.quiet + 1 }
  | .help => .error .help
  | .version => .error .version

/-- How far the reading of the command line has come: a parameter waits for its values until
the next option, and after `--` there are no options. -/
structure Reading where
  invocation : Invocation := {}
  pending : Option (Param × List String) := none
  optionsEnded : Bool := false

namespace Reading

/-- Assigns the values of the pending parameter. -/
def settle (r : Reading) : Except Refusal Reading :=
  match r.pending with
  | none => .ok r
  | some (p, values) => do
      return { r with invocation := ← r.invocation.assign p values, pending := none }

/-- Reads an option, with the value that is attached to it. -/
def option (r : Reading) (opt : Opt) (attached : Option String) : Except Refusal Reading := do
  let r ← r.settle
  match opt, attached with
  | .flag f, none => return { r with invocation := ← r.invocation.setFlag f }
  | .flag _, some _ => throw (.misuse "an option takes no value")
  | .param p, none => return { r with pending := some (p, []) }
  | .param p, some value => return { r with invocation := ← r.invocation.assign p [value] }

/-- Reads a cluster of short options; the first that takes a value takes the rest. -/
def shorts (r : Reading) : List Char → Except Refusal Reading
  | [] => .ok r
  | c :: rest =>
      match shortOptions.lookup c with
      | none => .error (.misuse ("unknown option -" ++ c.toString))
      | some (.flag f) => do
          let r ← r.option (.flag f) none
          r.shorts rest
      | some (.param p) =>
          match rest with
          | [] => r.option (.param p) none
          | '=' :: value => r.option (.param p) (some (String.ofList value))
          | value => r.option (.param p) (some (String.ofList value))

/-- Reads a long option without its two dashes. -/
def long (r : Reading) (text : List Char) : Except Refusal Reading :=
  let name := String.ofList (text.takeWhile (· ≠ '='))
  match longOptions.lookup name with
  | none => .error (.misuse ("unknown option --" ++ name))
  | some opt =>
      match text.dropWhile (· ≠ '=') with
      | [] => r.option opt none
      | _ :: value => r.option opt (some (String.ofList value))

/-- Reads a word that is no option: a value that is waited for, or the template. -/
def word (r : Reading) (text : String) : Except Refusal Reading :=
  match r.pending with
  | some (p, values) =>
      if !r.optionsEnded && values.length < p.arity then
        .ok { r with pending := some (p, values ++ [text]) }
      else do return { ← r.settle with pending := some (.template, [text]) }
  | none => .ok { r with pending := some (.template, [text]) }

/-- Reads one word of the command line. -/
def next (r : Reading) (text : String) : Except Refusal Reading :=
  if r.optionsEnded then r.word text
  else match text.toList with
    | ['-', '-'] => .ok { r with optionsEnded := true }
    | '-' :: '-' :: rest => r.long rest
    | '-' :: c :: rest => r.shorts (c :: rest)
    | _ => r.word text

end Reading

/-- What the words of a command line ask for. -/
def Invocation.ofWords? (words : List String) : Except Refusal Invocation := do
  let r ← words.foldlM Reading.next {}
  let inv := (← r.settle).invocation
  if inv.quiet ≠ 0 && inv.verbose ≠ 0 then throw (.misuse "-q and -v exclude each other")
  return inv

end Command
end Stencil
