import KeyValueDb.Lib.Hierarchy
import KeyValueDb.Blobfs.Files

/-!
What the calls mean, said of paths alone: a file system is a function from lists of names to files and
directories, and a call answers from it, refuses, or makes another one of it. There are no ids here, and
nothing that two paths could share.
-/

namespace KeyValueDb.Blobfs

open Containers Kvdb

abbrev Files := View (List UInt8) (List UInt8)

-- A file system in which nothing was made.
def bare : Files := fun path => if path = [] then some .dir else none

-- There is something in the directory.
def Files.Occupied (V : Files) (path : List (List UInt8)) : Prop := ∃ name, V (path ++ [name]) ≠ none

-- A file cut off at `size`, or filled up to it with zeros.
def resized (data : List UInt8) (size : Nat) : List UInt8 :=
  data.take size ++ List.replicate (size - data.length) 0

-- The directory of the last of the names, which need not be there, and this name.
def locate (V : Files) (cfg : FsCfg) :
    List (List UInt8) → List (List UInt8) → Except Errno (List (List UInt8) × List UInt8)
  | dir, [] => .ok (dir, [])
  | dir, name :: names =>
    if name = [dot] ∨ name = [dot, dot] then .error Errno.EINVAL
    else if cfg.nameMax < name.length then .error Errno.ENAMETOOLONG
    else if names = [] then .ok (dir, name)
    else
      match V (dir ++ [name]) with
      | none => .error Errno.ENOENT
      | some .dir => locate V cfg (dir ++ [name]) names
      | some (.file _) => .error Errno.ENOTDIR

-- Where a path leads. The root directory itself has no name.
structure Place where
  dir : List (List UInt8)
  name : List UInt8
  wantDir : Bool
  deriving Repr, DecidableEq

def Place.path (x : Place) : List (List UInt8) := x.dir ++ [x.name]

section

variable (cfg : FsCfg) (mounted : Bool) (V : Files)

def place : Option CStr → Except Errno Place
  | none => .error Errno.EINVAL
  | some path =>
    if mounted = false then .error Errno.ENODEV
    else
      match locate V cfg [] (pathNames path.chars) with
      | .error e => .error e
      | .ok (dir, name) => .ok ⟨dir, name, decide (name ≠ []) && endsInSlash path.chars⟩

-- What is there.
def lookup (path : Option CStr) : Except Errno (Place × Obj (List UInt8)) :=
  match place cfg mounted V path with
  | .error e => .error e
  | .ok x =>
    if x.name = [] then .ok (x, .dir)
    else
      match V x.path with
      | none => .error Errno.ENOENT
      | some o => if x.wantDir ∧ o ≠ .dir then .error Errno.ENOTDIR else .ok (x, o)

def fileAt (path : Option CStr) : Except Errno (List (List UInt8) × List UInt8) :=
  match lookup cfg mounted V path with
  | .error e => .error e
  | .ok (_, .dir) => .error Errno.EISDIR
  | .ok (x, .file data) => .ok (x.path, data)

end

inductive FsOp where
  | mount
  | unmount
  | create (path : Option CStr)
  | mkdir (path : Option CStr)
  | unlink (path : Option CStr)
  | rename (src dst : Option CStr)
  | stat (path : Option CStr)
  | read (path : Option CStr) (off len : Nat)
  | write (path : Option CStr) (off : Nat) (buf : List UInt8)
  | truncate (path : Option CStr) (size : Nat)
  deriving DecidableEq

inductive FsReply where
  | unit
  | stat (s : Stat)
  | bytes (data : List UInt8)
  deriving Repr, DecidableEq

section

variable (cfg : FsCfg) (mounted : Bool) (V : Files)

-- What a call on a path does that is to be free.
def meansNew (o : Obj (List UInt8)) (root : Errno) (asDir : Bool) (path : Option CStr) :
    Except Errno (Files × FsReply) :=
  match place cfg mounted V path with
  | .error e => .error e
  | .ok x =>
    if x.name = [] then .error root
    else if V x.path ≠ none then .error Errno.EEXIST
    else if x.wantDir ∧ asDir = false then .error Errno.EISDIR
    else .ok (Function.update V x.path (some o), .unit)

open Classical in
noncomputable def meansUnlink (path : Option CStr) : Except Errno (Files × FsReply) :=
  match lookup cfg mounted V path with
  | .error e => .error e
  | .ok (x, o) =>
    if x.name = [] then .error Errno.EBUSY
    else if o = .dir ∧ V.Occupied x.path then .error Errno.ENOTEMPTY
    else .ok (Function.update V x.path none, .unit)

def meansRename (src dst : Option CStr) : Except Errno (Files × FsReply) :=
  match lookup cfg mounted V src with
  | .error e => .error e
  | .ok (x, o) =>
    if x.name = [] then .error Errno.EBUSY
    else
      match place cfg mounted V dst with
      | .error e => .error e
      | .ok y =>
        if y.name = [] then .error Errno.EBUSY
        else if y.wantDir ∧ o ≠ .dir then .error Errno.ENOTDIR
        else if y.dir ≠ x.dir then .error Errno.EXDEV
        else if V y.path ≠ none then .error Errno.EEXIST
        else .ok (V.moved x.dir x.name y.name, .unit)

def meansStat (path : Option CStr) : Except Errno (Files × FsReply) :=
  match lookup cfg mounted V path with
  | .error e => .error e
  | .ok (_, .dir) => .ok (V, .stat ⟨.dir, 0⟩)
  | .ok (_, .file data) => .ok (V, .stat ⟨.file, data.length⟩)

def meansRead (path : Option CStr) (off len : Nat) : Except Errno (Files × FsReply) :=
  match fileAt cfg mounted V path with
  | .error e => .error e
  | .ok (_, data) => .ok (V, .bytes ((data.drop off).take len))

def meansWrite (path : Option CStr) (off : Nat) (buf : List UInt8) : Except Errno (Files × FsReply) :=
  match fileAt cfg mounted V path with
  | .error e => .error e
  | .ok (p, data) =>
    if buf = [] then .ok (V, .unit)
    else if cfg.fileMax < off + buf.length then .error Errno.ENOSPC
    else .ok (Function.update V p (some (.file (overwritten data off buf))), .unit)

def meansTruncate (path : Option CStr) (size : Nat) : Except Errno (Files × FsReply) :=
  match fileAt cfg mounted V path with
  | .error e => .error e
  | .ok (p, data) =>
    if cfg.fileMax < size then .error Errno.ENOSPC
    else .ok (Function.update V p (some (.file (resized data size))), .unit)

-- What a call makes of the file system, and its answer.
noncomputable def FsOp.means : FsOp → Except Errno (Files × FsReply)
  | .mount => if mounted then .error Errno.EALREADY else .ok (V, .unit)
  | .unmount => .ok (V, .unit)
  | .create path => meansNew cfg mounted V (.file []) Errno.EISDIR false path
  | .mkdir path => meansNew cfg mounted V .dir Errno.EEXIST true path
  | .unlink path => meansUnlink cfg mounted V path
  | .rename src dst => meansRename cfg mounted V src dst
  | .stat path => meansStat cfg mounted V path
  | .read path off len => meansRead cfg mounted V path off len
  | .write path off buf => meansWrite cfg mounted V path off buf
  | .truncate path size => meansTruncate cfg mounted V path size

end

end KeyValueDb.Blobfs
