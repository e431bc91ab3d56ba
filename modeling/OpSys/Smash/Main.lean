import OpSys.Lib.Strtok
import Mathlib.Algebra.Group.Int.Defs

/-! The shell `smash`: the lexer, the fixed arrays of `main`, and which commands a line
dispatches. What is printed is left out; `malloc` and `strdup` do not fail. -/
namespace OpSys.Smash
open OpSys.Strtok

/-- `null`: a null pointer is read. `wild`: a store through a pointer that has not been
set, or past the end of a block. `unset`: memory is read that has not been set. -/
inductive Fault where
  | null
  | wild
  | unset
  deriving DecidableEq

/-- `" \t\n"` -/
def delim (c : UInt8) : Bool := c == 32 || c == 9 || c == 10

def semicolon : Bytes := [59]
def exitName : Bytes := [101, 120, 105, 116]
def loopName : Bytes := [108, 111, 111, 112]
def cdName : Bytes := [99, 100]
def pwdName : Bytes := [112, 119, 100]

/-- The arguments, and the line as the second round of `strtok` leaves it. The number of
`;` that it returns is that of the arguments equal to it. -/
def lexer (line : Bytes) : List Bytes × Bytes := tokens delim line.length line

theorem lexerSpec (line : Bytes) : (lexer line).1 = words delim line ∧ words delim (lexer line).2 = (words delim line).take 1 :=
  tokensSpec (by decide) le_rfl

/-- `*num_args + 1` is an `int`, and so is `delim_num + 1`. -/
def Countable (args : List Bytes) : Prop := args.length + 1 < 2147483648

instance (args : List Bytes) : Decidable (Countable args) := inferInstanceAs (Decidable (_ < _))

/-- `cmds`: ten blocks of 256 bytes for each command. -/
def separate (done : List (List Bytes)) (cmd : List Bytes) : List Bytes → Except Fault (List (List Bytes))
  | [] => .ok (done ++ [cmd])
  | arg :: args =>
    if arg = semicolon then separate (done ++ [cmd]) [] args
    else if cmd.length < 10 ∧ arg.length < 256 then separate done (cmd ++ [arg]) args
    else .error .wild

structure Parsed where
  value : Int
  errno : Bool
  moved : Bool

def isspace (c : UInt8) : Bool := c == 32 || 9 ≤ c && c ≤ 13
def isdigit (c : UInt8) : Bool := 48 ≤ c && c ≤ 57

/-- `strtol` to base 10, with 64-bit `long`; `moved` is `endptr != str`. -/
def strtol (str : Bytes) : Parsed :=
  let (negative, body) := match str.dropWhile isspace with
    | 45 :: body => (true, body)
    | 43 :: body => (false, body)
    | body => (false, body)
  let digits := body.takeWhile isdigit
  let n : Nat := digits.foldl (fun n c => n * 10 + (c.toNat - 48)) 0
  let value : Int := if negative then -n else n
  if digits = [] then ⟨0, false, false⟩
  else if value < -2 ^ 63 then ⟨-2 ^ 63, true, true⟩
  else if 2 ^ 63 ≤ value then ⟨2 ^ 63 - 1, true, true⟩
  else ⟨value, false, true⟩

/-- `cmds[i][0]`, and the arguments that `argnumArray[i]` counts. -/
structure Command where
  name : Bytes
  args : List Bytes
  deriving DecidableEq

def Command.exits (c : Command) : Bool := c.name == exitName && c.args.length == 1

/-- How often a command is run. For `loop` the arguments move down by two, and the name
stays where there is none to replace it. -/
def prepare : List Bytes → Except Fault (Nat × Command)
  | [] => .ok (0, ⟨[], []⟩)
  | name :: args =>
    if name = loopName then match args with
      | [] => .error .unset
      | str :: rest =>
        let parsed := strtol str
        if parsed.errno || !parsed.moved then .ok (0, ⟨name, args⟩)
        else .ok ((BitVec.ofInt 32 parsed.value).toInt.toNat, ⟨rest.headD name, rest⟩)
    else .ok (1, ⟨name, name :: args⟩)

def dispatch (c : Command) : Nat → List Command × Bool
  | 0 => ([], false)
  | n + 1 =>
    if c.exits then ([c], true)
    else
      let (cs, exited) := dispatch c n
      (c :: cs, exited)

def execute : List (List Bytes) → Except Fault (List Command × Bool)
  | [] => .ok ([], false)
  | cmd :: rest => do
    let (n, c) ← prepare cmd
    let (cs, exited) := dispatch c n
    if exited then return (cs, true)
    else
      let (cs', exited) ← execute rest
      return (cs ++ cs', exited)

end OpSys.Smash
