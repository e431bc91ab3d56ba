import OpSys.Lib.Traced
import OpSys.Smash.Lines

/-! `badger_fortune`: the reading of the fortune file, the modes, and the flags. Files are
closed without an error, and there is memory for every size that is not negative. -/
namespace OpSys.Fortune
open OpSys.Traced
open OpSys.Strtok (Bytes cstring)
open OpSys.Smash (lines strtol)

/-- `null`: a null pointer is read. `wild`: an address outside of its block. `unset`:
memory is read that has not been set. -/
inductive Stop where
  | exit (status : Int)
  | null
  | wild
  | unset
  deriving DecidableEq

/-- Bytes for `stdout`, bytes for the output file, and the use of `fortune[i]`. -/
inductive Event where
  | print (text : Bytes)
  | put (text : Bytes)
  | access (i : Int)
  deriving DecidableEq

abbrev Prog := Run Event Stop

def ascii (s : String) : Bytes := s.toList.map fun c => UInt8.ofNat c.toNat

def usageError : Bytes :=
  ascii "USAGE: \n\tbadger-fortune -f <file> -n <number> (optionally: -o <output file>) \n\t\t OR \n\tbadger-fortune -f <file> -b <batch file> (optionally: -o <output file>)\n"
def flagTypeError : Bytes := ascii "ERROR: Invalid Flag Types\n"
def doubleUsageError1 : Bytes := ascii "ERROR: You can't specify a specific fortune number in conjunction with batch mode\n"
def doubleUsageError2 : Bytes := ascii "ERROR: You can't use batch mode when specifying a fortune number using -n\n"
def invalidNumber : Bytes := ascii "ERROR: Invalid Fortune Number\n"
def emptyBatch : Bytes := ascii "ERROR: Batch File Empty\n"

def die {α : Type} (text : Bytes) : Prog α := do
  leave (.print text)
  stop (.exit 1)

def atoi (s : Bytes) : Int := (BitVec.ofInt 32 (strtol s).value).toInt

/-! ### The table -/

/-- `malloc` of `num[0]` pointers, and of `num[1]` bytes for each; `memory` is what the
blocks contain before. -/
def alloc (memory : Nat → Nat → UInt8) : List Int → Prog (Int × List Bytes)
  | [] => die (ascii "ERROR: Fortune File Empty\n")
  | num0 :: more =>
    if num0 < 0 then die (ascii "array not allocated")
    else if num0 = 0 then pure (num0, [])
    else match more with
      | [] => stop .unset
      | num1 :: _ =>
        if num1 < 0 then die (ascii "array not allocated")
        else pure (num0, (List.range num0.toNat).map fun i => (List.range num1.toNat).map (memory i))

def strcat (dest src : Bytes) : Except Stop Bytes :=
  let s := cstring dest
  let t := cstring src
  if s.length + t.length < dest.length then .ok (s ++ t ++ 0 :: dest.drop (s.length + t.length + 1)) else .error .wild

def entry (fortune : List Bytes) (i : Int) : Prog Bytes := do
  leave (.access i)
  if i < 0 then stop .wild
  else match fortune[i.toNat]? with
    | none => stop .wild
    | some block => pure block

def delim : Bytes := ascii "%\n"

def readFortunes (fortune : List Bytes) (counter numFortune : Nat) : List Bytes → Prog (List Bytes)
  | [] => pure fortune
  | buf :: rest =>
    if counter < 1 then readFortunes fortune (counter + 1) numFortune rest
    else if cstring buf = delim then readFortunes fortune counter (numFortune + 1) rest
    else do
      let block ← entry fortune numFortune
      let block ← lift (strcat block buf)
      readFortunes (fortune.set numFortune block) counter numFortune rest

def load (memory : Nat → Nat → UInt8) (file : Bytes) : Prog (Int × List Bytes) := do
  let (num0, fortune) ← alloc memory (((lines file).take 2).map atoi)
  let fortune ← readFortunes fortune 0 0 ((lines file).drop 2)
  return (num0, fortune)

/-! ### The modes -/

def string (block : Bytes) : Except Stop Bytes := if 0 ∈ block then .ok (cstring block) else .error .wild

def text (fortune : List Bytes) (i : Int) : Prog Bytes := do
  let block ← entry fortune i
  lift (string block)

def numberMode (num0 : Int) (fortune : List Bytes) (arg : Bytes) : Prog Unit := do
  let fortuneIndex := atoi arg
  if fortuneIndex < 0 ∨ fortuneIndex > num0 then die invalidNumber
  else
    let s ← text fortune (fortuneIndex - 1)
    leave (.print s)

/-- `strcmp(&buf[strlen(buf) - 1], "\n") == 0` -/
def endsLine (buf : Bytes) : Except Stop Bool := match (cstring buf).getLast? with
  | none => .error .wild
  | some c => .ok (c == 10)

def cut (fortune : List Bytes) (i len : Int) : Prog (List Bytes) := do
  let block ← entry fortune i
  if 0 ≤ len - 2 ∧ len - 2 < block.length then pure (fortune.set i.toNat (block.set (len - 2).toNat 0))
  else stop .wild

/-- One round of the loop of batch mode: the table that it leaves, and whether the line
counts. -/
def batchLine (num0 : Int) (fortune : List Bytes) (buf : Bytes) : Prog (List Bytes × Bool) := do
  let fortuneIndex := atoi buf
  if fortuneIndex < 0 ∨ fortuneIndex > num0 then
    leave (.print (invalidNumber ++ ascii "\n"))
    return (fortune, false)
  else
    if ← lift (endsLine buf) then
      let s ← text fortune (fortuneIndex - 1)
      leave (.print (s ++ ascii "\n\n"))
      return (fortune, true)
    else
      let s ← text fortune (fortuneIndex - 1)
      let fortune ← cut fortune (fortuneIndex - 1) s.length
      let s ← text fortune (fortuneIndex - 1)
      leave (.print s)
      return (fortune, true)

def numberOutput (fortune : List Bytes) (arg : Bytes) : Prog Unit := do
  let s ← text fortune (atoi arg - 1)
  leave (.put s)

def batchOutputLine (num0 : Int) (fortune : List Bytes) (buf : Bytes) : Prog (List Bytes × Bool) := do
  let fortuneIndex := atoi buf
  if fortuneIndex ≤ 0 ∨ fortuneIndex > num0 then
    leave (.put (invalidNumber ++ ascii "\n"))
    return (fortune, false)
  else
    if ← lift (endsLine buf) then
      let s ← text fortune (fortuneIndex - 1)
      leave (.put s)
      leave (.put (ascii "\n\n"))
      return (fortune, true)
    else
      let s ← text fortune (fortuneIndex - 1)
      leave (.put s)
      return (fortune, true)

def batchLoop (line : List Bytes → Bytes → Prog (List Bytes × Bool)) (fortune : List Bytes) (batchCounter : Nat) : List Bytes → Prog Nat
  | [] => pure batchCounter
  | buf :: rest => do
    let (fortune, counts) ← line fortune buf
    batchLoop line fortune (if counts then batchCounter + 1 else batchCounter) rest

def batch (line : List Bytes → Bytes → Prog (List Bytes × Bool)) (fortune : List Bytes) (file : Bytes) : Prog Unit := do
  let batchCounter ← batchLoop line fortune 0 (lines file)
  if batchCounter = 0 then die emptyBatch else pure ()

def batchMode (num0 : Int) (fortune : List Bytes) (file : Bytes) : Prog Unit := batch (batchLine num0) fortune file

def batchOutput (num0 : Int) (fortune : List Bytes) (file : Bytes) : Prog Unit := batch (batchOutputLine num0) fortune file

/-! ### `main` -/

structure Flags where
  fFlag : Bool
  fNum : Nat
  nFlag : Bool
  nNum : Nat
  bFlag : Bool
  bNum : Nat
  oFlag : Bool
  oNum : Nat

def scan (flags : Flags) (i : Nat) : List Bytes → Prog Flags
  | [] => pure flags
  | arg :: rest =>
    if arg = ascii "-f" then scan {flags with fNum := i, fFlag := true} (i + 1) rest
    else if arg = ascii "-n" then
      if flags.bFlag then die doubleUsageError1 else scan {flags with nNum := i, nFlag := true} (i + 1) rest
    else if arg = ascii "-b" then
      if flags.nFlag then die doubleUsageError2 else scan {flags with bNum := i, bFlag := true} (i + 1) rest
    else if arg = ascii "-o" then scan {flags with oNum := i, oFlag := true} (i + 1) rest
    else scan flags (i + 1) rest

/-- `argv[argc]` is null. -/
def argument (argv : List Bytes) (i : Nat) : Prog Bytes := match argv[i]? with
  | some arg => pure arg
  | none => stop .null

def openFile (files : Bytes → Option Bytes) (name error : Bytes) : Prog Bytes := match files name with
  | some file => pure file
  | none => die error

/-- `-o`: the output file is empty once it is open. -/
def output (files : Bytes → Option Bytes) (creates : Bytes → Bool) (argv : List Bytes) (flags : Flags) (num0 : Int) (fortune : List Bytes) :
    Prog Unit := do
  let name ← argument argv (flags.oNum + 1)
  if creates name then
    let files := Function.update files name (some [])
    if flags.nFlag then
      let arg ← argument argv (flags.nNum + 1)
      numberOutput fortune arg
    else if flags.bFlag then
      let batchName ← argument argv (flags.bNum + 1)
      let file ← openFile files batchName (ascii "cannot open file\n")
      batchOutput num0 fortune file
    else pure ()
  else die (ascii "cannot open file\n")

/-- The files that can be read, and the names that can be written to. -/
def main (files : Bytes → Option Bytes) (creates : Bytes → Bool) (memory : Nat → Nat → UInt8) (argv : List Bytes) : Prog Unit := do
  if argv.length < 5 then die usageError
  else
    let flags ← scan ⟨false, 0, false, 0, false, 0, false, 0⟩ 1 argv.tail
    if !flags.nFlag && !flags.bFlag then die flagTypeError
    else if flags.nFlag && !flags.fFlag && !flags.bFlag && !flags.oFlag then die flagTypeError
    else if !flags.fFlag && (flags.nFlag || flags.bFlag) then die (ascii "ERROR: No fortune file was provided\n")
    else
      let name ← argument argv (flags.fNum + 1)
      let file ← openFile files name (ascii "ERROR: Can't open fortune file\n")
      let (num0, fortune) ← load memory file
      if flags.nFlag && argv.length == 5 then
        let arg ← argument argv (flags.nNum + 1)
        numberMode num0 fortune arg
      else if flags.bFlag && argv.length == 5 then
        let batchName ← argument argv (flags.bNum + 1)
        let file ← openFile files batchName (ascii "ERROR: Can't open batch file\n")
        batchMode num0 fortune file
      else if argv.length > 5 then
        if flags.oFlag then output files creates argv flags num0 fortune else pure ()
      else pure ()

end OpSys.Fortune
