import OpSys.Kernel.FileStore
import OpSys.Kernel.Folders
import OpSys.Lib.Script

/-! The upper half of `fs.c`, which goes by names, and the calls of `sysfile.c`. They come one
after another. An inode in memory that nobody has locked is as it is on the disk, so that of
the cache there are the references only, one number in the list for each. -/
namespace OpSys.Sysfile
open OpSys.Bytes OpSys.Transition OpSys.Scripts OpSys.Fs

abbrev NINODE : Nat := 50
abbrev ROOTINO : Nat := 1
abbrev O_RDONLY : UInt32 := 0
abbrev O_WRONLY : UInt32 := 1
abbrev O_RDWR : UInt32 := 2
abbrev O_CREATE : UInt32 := 512

inductive Ask where
  | file (a : Act)
  | iget (i : Nat)
  | idup (i : Nat)
  | iput (i : Nat)

/-- Why the files do not do what they are asked, or that `iget` finds no empty inode. -/
inductive Refusal (δ : Type) where
  | files (e : δ)
  | noSlot

/-- A step of the files with these references. -/
def beside {σ δ : Type} (refs : List Nat) : Except δ (σ × Answer) → Except (Refusal δ) ((σ × List Nat) × Answer)
  | .ok (t, x) => .ok ((t, refs), x)
  | .error e => .error (.files e)

def refStep {σ δ : Type} (m : Machine σ Act Answer δ) (s : σ × List Nat) : Ask → Except (Refusal δ) ((σ × List Nat) × Answer)
  | .file a => beside s.2 (m.step s.1 a)
  | .iget i => if i ∉ s.2 ∧ NINODE ≤ s.2.dedup.length then .error .noSlot else .ok ((s.1, i :: s.2), .none)
  | .idup i => .ok ((s.1, i :: s.2), .none)
  | .iput i => if s.2.count i = 1 then beside (s.2.erase i) (m.step s.1 (.iput i)) else .ok ((s.1, s.2.erase i), .none)

def references {σ δ : Type} (m : Machine σ Act Answer δ) : Machine (σ × List Nat) Ask Answer (Refusal δ) := ⟨fun s => m.init s.1, refStep m⟩

inductive Panic where
  | dirlinkRead
  | dirlink
  | isdirempty
  | unlinkLink
  | unlinkWritei
  | createDots
  | createDirlink
  | answer
  deriving DecidableEq

abbrev Calls := Script Ask Answer Panic

def panic {ρ : Type} (e : Panic) : Calls ρ := .fails e

/-! ### What `fs.c` has for inodes -/

/-- The fields of an inode that is locked, or that this locks. -/
def ilock (i : Nat) : Calls Stat := .asks (.file (.inode i)) fun
  | .stat st => .done st
  | _ => panic .answer

def iget (i : Nat) : Calls Unit := .asks (.iget i) fun _ => .done ()
def idup (i : Nat) : Calls Unit := .asks (.idup i) fun _ => .done ()
def iput (i : Nat) : Calls Unit := .asks (.iput i) fun _ => .done ()

def iupdate (i : Nat) (major minor nlink : UInt16) : Calls Unit := .asks (.file (.iupdate i major minor nlink)) fun _ => .done ()

def ialloc (type : UInt16) : Calls Nat := .asks (.file (.ialloc type)) fun
  | .inum i => do
    iget i
    return i
  | _ => panic .answer

def readi (i off n : Nat) : Calls (Int × List UInt8) := .asks (.file (.readi i off n)) fun
  | .bytes n dst => .done (n, dst)
  | _ => panic .answer

def writei (i off : Nat) (src : List UInt8) : Calls Int := .asks (.file (.writei i off src)) fun
  | .count n => .done n
  | _ => panic .answer

def dirlookup (dp : Nat) (name : Name) : Calls (Option (Nat × Nat)) := .asks (.file (.dirlookup dp name)) fun
  | .entry none => .done none
  | .entry (some (inum, off)) => do
    iget inum
    return some (inum, off)
  | _ => panic .answer

/-! ### Directories -/

def emptyFrom (dp size : Nat) : Nat → Nat → Calls Nat
  | 0, off => return off
  | rounds + 1, off =>
    if off < size then do
      let de ← readi dp off 16
      if de.1 ≠ 16 then panic .dirlinkRead
      else if half (chars de.2) 0 = 0 then return off
      else emptyFrom dp size rounds (off + 16)
    else return off

def dirlink (dp : Nat) (name : Name) (inum : Nat) : Calls Int := do
  match ← dirlookup dp name with
  | some (ip, _) => do
    iput ip
    return -1
  | none => do
    let st ← ilock dp
    let off ← emptyFrom dp st.size st.size 0
    let n ← writei dp off (dirent inum name)
    if n ≠ 16 then panic .dirlink
    else return 0

def isdirempty (dp size : Nat) : Nat → Nat → Calls Bool
  | 0, _ => return true
  | rounds + 1, off =>
    if off < size then do
      let de ← readi dp off 16
      if de.1 ≠ 16 then panic .isdirempty
      else if half (chars de.2) 0 ≠ 0 then return false
      else isdirempty dp size rounds (off + 16)
    else return true

/-! ### Paths -/

def namexEnd (nameiparent : Bool) (ip : Nat) (name : Name) : Calls (Option (Nat × Name)) :=
  if nameiparent then do
    iput ip
    return none
  else return some (ip, name)

def namexLoop (nameiparent : Bool) : Nat → Nat → List UInt8 → Name → Calls (Option (Nat × Name))
  | 0, ip, _, name => namexEnd nameiparent ip name
  | rounds + 1, ip, path, last => match skipelem path with
    | none => namexEnd nameiparent ip last
    | some (path, name) => do
      let st ← ilock ip
      if st.type ≠ T_DIR then do
        iput ip
        return none
      else if nameiparent ∧ path = [] then return some (ip, name)
      else match ← dirlookup ip name with
        | none => do
          iput ip
          return none
        | some (next, _) => do
          iput ip
          namexLoop nameiparent rounds next path name

def namex (path : List UInt8) (nameiparent : Bool) (cwd : Nat) : Calls (Option (Nat × Name)) :=
  if path.head? = some slash then do
    iget ROOTINO
    namexLoop nameiparent path.length ROOTINO path []
  else do
    idup cwd
    namexLoop nameiparent path.length cwd path []

def namei (path : List UInt8) (cwd : Nat) : Calls (Option Nat) := do
  let found ← namex path false cwd
  return found.map (·.1)

def nameiparent (path : List UInt8) (cwd : Nat) : Calls (Option (Nat × Name)) := namex path true cwd

/-! ### `sysfile.c` -/

def sys_link (old new : List UInt8) (cwd : Nat) : Calls Int := do
  match ← namei old cwd with
  | none => return -1
  | some ip => do
    let st ← ilock ip
    if st.type = T_DIR then do
      iput ip
      return -1
    else do
      iupdate ip st.major st.minor (st.nlink + 1)
      match ← nameiparent new cwd with
      | none => bad ip
      | some (dp, name) => do
        let _ ← ilock dp
        let n ← dirlink dp name ip
        iput dp
        if n < 0 then bad ip
        else do
          iput ip
          return 0
where
  bad (ip : Nat) : Calls Int := do
    let st ← ilock ip
    iupdate ip st.major st.minor (st.nlink - 1)
    iput ip
    return -1

def unlinkEntry (dp : Nat) (dst : Stat) (ip : Nat) (st : Stat) (off : Nat) : Calls Int := do
  let n ← writei dp off (List.replicate 16 0)
  if n ≠ 16 then panic .unlinkWritei
  else do
    if st.type = T_DIR then iupdate dp dst.major dst.minor (dst.nlink - 1) else pure ()
    iput dp
    iupdate ip st.major st.minor (st.nlink - 1)
    iput ip
    return 0

/-- `nlink` is a `short`. -/
def sys_unlink (path : List UInt8) (cwd : Nat) : Calls Int := do
  match ← nameiparent path cwd with
  | none => return -1
  | some (dp, name) => do
    let dst ← ilock dp
    if namecmp (chars name) (chars dot) = 0 ∨ namecmp (chars name) (chars dotdot) = 0 then do
      iput dp
      return -1
    else match ← dirlookup dp name with
      | none => do
        iput dp
        return -1
      | some (ip, off) => do
        let st ← ilock ip
        if st.nlink = 0 ∨ 2 ^ 15 ≤ st.nlink.toNat then panic .unlinkLink
        else do
          let empty ← if st.type = T_DIR then isdirempty ip st.size st.size 32 else pure true
          if empty then unlinkEntry dp dst ip st off
          else do
            iput ip
            iput dp
            return -1

def createDots (dp : Nat) (dst : Stat) (ip : Nat) : Calls Unit := do
  iupdate dp dst.major dst.minor (dst.nlink + 1)
  let n ← dirlink ip dot ip
  if n < 0 then panic .createDots
  else do
    let n ← dirlink ip dotdot dp
    if n < 0 then panic .createDots else pure ()

def createNew (dp : Nat) (dst : Stat) (name : Name) (type major minor : UInt16) : Calls (Option Nat) := do
  let ip ← ialloc type
  let _ ← ilock ip
  iupdate ip major minor 1
  if type = T_DIR then createDots dp dst ip else pure ()
  let n ← dirlink dp name ip
  if n < 0 then panic .createDirlink
  else do
    iput dp
    return some ip

def create (path : List UInt8) (type major minor : UInt16) (cwd : Nat) : Calls (Option Nat) := do
  match ← nameiparent path cwd with
  | none => return none
  | some (dp, name) => do
    let dst ← ilock dp
    match ← dirlookup dp name with
    | some (ip, _) => do
      iput dp
      let st ← ilock ip
      if type = T_FILE ∧ st.type = T_FILE then return some ip
      else do
        iput ip
        return none
    | none => createNew dp dst name type major minor

/-- `room`: there is a `struct file` and a descriptor. The inode of the new file, and whether it
can be written. -/
def sys_open (path : List UInt8) (omode : UInt32) (room : Bool) (cwd : Nat) : Calls (Option (Nat × Bool)) := do
  match ← inode with
  | none => return none
  | some ip =>
    if !room then do
      iput ip
      return none
    else return some (ip, omode &&& O_WRONLY ≠ 0 ∨ omode &&& O_RDWR ≠ 0)
where
  inode : Calls (Option Nat) :=
    if omode &&& O_CREATE ≠ 0 then create path T_FILE 0 0 cwd
    else do
      match ← namei path cwd with
      | none => return none
      | some ip => do
        let st ← ilock ip
        if st.type = T_DIR ∧ omode ≠ O_RDONLY then do
          iput ip
          return none
        else return some ip

def sys_mkdir (path : List UInt8) (cwd : Nat) : Calls Int := do
  match ← create path T_DIR 0 0 cwd with
  | none => return -1
  | some ip => do
    iput ip
    return 0

def sys_mknod (path : List UInt8) (major minor : UInt16) (cwd : Nat) : Calls Int := do
  match ← create path T_DEV major minor cwd with
  | none => return -1
  | some ip => do
    iput ip
    return 0

/-- The new directory, to which the process then holds the reference that it gives up for the
old one. -/
def sys_chdir (path : List UInt8) (cwd : Nat) : Calls (Option Nat) := do
  match ← namei path cwd with
  | none => return none
  | some ip => do
    let st ← ilock ip
    if st.type ≠ T_DIR then do
      iput ip
      return none
    else do
      iput cwd
      return some ip

end OpSys.Sysfile
